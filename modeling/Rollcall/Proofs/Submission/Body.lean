import Rollcall.Submission.Body
import Rollcall.Proofs.Json.Shape
import Rollcall.Proofs.Time.Rfc3339

/-! A body that is written reads back as the submission it was written for. The day and the time come from
the path; bytes that are there but none are told as absent, and the time of creation is the one that its text
shows. Members are followed one by one: each fills its field and leaves the others as they are. -/

namespace Rollcall

open Json Json.Reader

namespace BodyFields

variable {r s : Input} {α : Type}

theorem run_time (t : Instant) (r : Input) :
    time.run (Text.octets (Json.text (String.ofList t.write)) ++ r) = .ok (t.shown, r) :=
  run_textOf (by rw [String.toList_ofList, Time.readRfc3339?_write]) r

theorem run_port (p : UInt16) (hr : EndsMember r) :
    port.run (Text.octets (Decimal.nat p.toNat) ++ r) = .ok (some p, r) := by
  have hp : p.toNat < 65536 := p.toNat_lt
  have hnat : (Nat.toUInt16 <$> naturalBelow 65536).run (Text.octets (Decimal.nat p.toNat) ++ r) =
      .ok (p, r) := by
    rw [run_map_of_ok (run_naturalBelow hr.endsNumber hp (Nat.lt_trans hp (by decide)))]
    exact congrArg (fun q => Except.ok (q, r)) UInt16.ofNat_toNat
  obtain ⟨c, t, ht, hc⟩ := exists_octets_nat p.toNat
  have hword : c ≠ 110 := by
    rintro rfl
    exact absurd hc (by decide)
  rw [ht] at hnat ⊢
  exact run_optional (not_isBlank_of_isDigit hc) hword hnat

section Field

variable {β : Type} {x : Reader β} {k : String}

/-- A member fills its field. -/
theorem leads_field (next : Option β → BodyFields)
    (hk : member k (next none) = (do return next (← once none x))) {v : String} {a : β}
    (h : ∀ r, EndsMember r → x.run (Text.octets v ++ r) = .ok (a, r)) :
    Leads member (next none) [(k, v)] (next (some a)) := by
  refine .cons (fun r hr => ?_) (.nil _)
  change (member k (next none)).run (58 :: (Text.octets v ++ r)) = _
  rw [hk, run_bind_of_ok (run_once (h r hr))]
  rfl

/-- A member that may be left out fills its field if it is there. -/
theorem leads_option (next : Option β → BodyFields)
    (hk : member k (next none) = (do return next (← once none x))) (o : Option α) {w : α → String}
    {g : α → β} (h : ∀ a r, EndsMember r → x.run (Text.octets (w a) ++ r) = .ok (g a, r)) :
    Leads member (next none) (o.map fun a => (k, w a)).toList (next (o.map g)) := by
  cases o with
  | none => exact .nil _
  | some a => exact leads_field next hk (h a)

end Field

/-- The fields that are always named. -/
def required (s : Submission) : BodyFields where
  submitter := some s.submitter
  createdAt := some s.createdAt.shown
  remoteAddr := some s.remoteAddr
  peerId := some s.peerId
  blockHash := some s.blockHash

theorem leads_required (s : Submission) : Leads member {} [("submitter", Json.text s.submitter),
    ("created_at", Json.text (String.ofList s.createdAt.write)),
    ("remote_addr", Json.text s.remoteAddr), ("peer_id", Json.text s.peerId),
    ("block_hash", Json.text s.blockHash)] (required s) := by
  have hsubmitter := leads_field (k := "submitter") (fun o => { submitter := o }) rfl fun r _ => run_text s.submitter r
  have htime := leads_field (k := "created_at") (fun o => { submitter := s.submitter, createdAt := o }) rfl fun r _ =>
    run_time s.createdAt r
  have haddr := leads_field (k := "remote_addr") (fun o => { required s with remoteAddr := o, peerId := none, blockHash := none })
    rfl fun r _ => run_text s.remoteAddr r
  have hpeer := leads_field (k := "peer_id") (fun o => { required s with peerId := o, blockHash := none }) rfl fun r _ =>
    run_text s.peerId r
  have hhash := leads_field (k := "block_hash") (fun o => { required s with blockHash := o }) rfl fun r _ =>
    run_text s.blockHash r
  exact (((hsubmitter.append htime).append haddr).append hpeer).append hhash

/-- The fields that the members of a submission fill. -/
def ofSubmission (s : Submission) : BodyFields :=
  { required s with
    snarkWork := s.snarkWork.map fun b => (some b).filter (0 < ·.size)
    rawBlock := s.rawBlock.map fun b => (some b).filter (0 < ·.size)
    controlPort := s.controlPort.map some
    commit := s.commit.map some }

theorem leads_bodyMembers (s : Submission) : Leads member {} s.bodyMembers (ofSubmission s) := by
  have hsnark := leads_option (k := "snark_work") (fun o => { required s with snarkWork := o }) rfl s.snarkWork
    fun b r _ => run_optionalBytes b r
  have hblock := leads_option (k := "raw_block")
    (fun o => { ofSubmission s with rawBlock := o, controlPort := none, commit := none }) rfl s.rawBlock
    fun b r _ => run_optionalBytes b r
  have hport := leads_option (k := "graphql_control_port") (fun o => { ofSubmission s with controlPort := o, commit := none }) rfl
    s.controlPort fun p r hr => run_port p hr
  have hcommit := leads_option (k := "built_with_commit_sha") (fun o => { ofSubmission s with commit := o }) rfl s.commit
    fun c r _ => run_optional_text c r
  exact ((((leads_required s).append hsnark).append hblock).append hport).append hcommit

theorem run_reader (s : Submission) : reader.all (Text.octets s.body) = .ok (ofSubmission s) := by
  obtain ⟨t, ht, hrun⟩ := run_members (leads_bodyMembers s) []
  rw [List.append_nil] at hrun
  have hreader : reader.run (Text.octets s.body) = .ok (ofSubmission s, []) := by
    rw [Submission.body, ht]
    exact run_braced hrun
  rw [Reader.all, hreader]
  rfl

end BodyFields

namespace Submission

/-- Bytes that are there but none are left out. -/
def withoutEmptyBytes (s : Submission) : Submission :=
  { s with
    snarkWork := s.snarkWork.filter (0 < ·.size)
    rawBlock := s.rawBlock.filter (0 < ·.size) }

theorem ofBody_body (s : Submission) : ofBody s.body.toUTF8 =
    .ok { s.withoutEmptyBytes with createdAt := s.createdAt.shown, date := "", submittedAt := .epoch } := by
  have hjoin {α : Type} (o : Option α) (p : α → Bool) :
      (o.map fun b => (some b).filter p).join = o.filter p := by
    cases o <;> rfl
  have hsome {α : Type} (o : Option α) : (o.map some).join = o := by
    cases o <;> rfl
  have hread : BodyFields.reader.all s.body.toUTF8.data.toList = .ok (BodyFields.ofSubmission s) :=
    BodyFields.run_reader s
  rw [ofBody, hread]
  simp only [Except.map, BodyFields.toSubmission, BodyFields.ofSubmission, BodyFields.required, hjoin,
    hsome, Option.getD_some, withoutEmptyBytes]

/-- A submission that is written to a body and filed under a path is read back from there, with the day and
the time of the path. Only bytes that are there but none are not told apart from absent ones, and a time of creation
in a leap second that is not shown comes back as the next second. -/
theorem read_body (s : Submission) (path : String) : read s.body.toUTF8 path =
    (SubmissionPath.read path).map fun p =>
      { s.withoutEmptyBytes with createdAt := s.createdAt.shown, date := p.date, submittedAt := p.submittedAt } := by
  rw [read]
  cases SubmissionPath.read path with
  | error e => rfl
  | ok p =>
    rw [ofBody_body]
    rfl

/-- A body with a time of creation in the leap second behind 23:56:04 is read with one in the ordinary second
23:56:05. -/
theorem untold_createdAt_moved :
    let s : Submission := { createdAt := .untold }
    let p : SubmissionPath := ⟨"1970-01-01", .epoch, "alice"⟩
    let path := SubmissionPath.write .epoch "alice"
    SubmissionPath.read path = .ok p ∧
      read s.body.toUTF8 path = .ok { s with
        createdAt := ⟨1704153365, 333333333, by decide, by decide⟩, date := p.date, submittedAt := p.submittedAt } ∧
      read s.body.toUTF8 path ≠
        .ok { s.withoutEmptyBytes with date := p.date, submittedAt := p.submittedAt } := by
  intro s p path
  have hp : SubmissionPath.read path = .ok p := by decide +kernel
  have hmoved : Instant.untold.shown = ⟨1704153365, 333333333, by decide, by decide⟩ := by decide
  have hread : read s.body.toUTF8 path = .ok { s with
      createdAt := ⟨1704153365, 333333333, by decide, by decide⟩, date := p.date, submittedAt := p.submittedAt } := by
    rw [read, hp, ofBody_body, ← hmoved]
    rfl
  refine ⟨hp, hread, fun h => ?_⟩
  have heq := congrArg createdAt (Except.ok.inj (hread.symm.trans h))
  exact absurd heq (by decide)

end Submission

end Rollcall
