import Mathlib.Data.List.Induction
import Rollcall.Service.Basic
import Rollcall.Proofs.Admission.Gate
import Rollcall.Proofs.Storage.Backend

/-! Whose submissions are stored. The gate is asked about the one submitter that a batch stands for, while
the whole batch is stored, so others come in with it. Nothing else gets past the whitelist: a store that
holds submissions of listed submitters only keeps doing so until a batch smuggles one in. -/

namespace Rollcall

/-- Only listed submitters have submissions in the store. -/
def Backend.Lawful (w : Whitelist) (x : Backend) : Prop :=
  ∀ p d s, Text.startsWith submissionsPrefix.toList p.toList → x.Holds p d →
    Submission.read d p = .ok s → w.contains s.submitter

namespace Service

/-- The request holds this batch, which stands for this submission, and the gate lets it in. -/
structure LetsIn (s : Service) (now : Int) (body : ByteArray) (b : Batch) (x : Submission) : Prop where
  read : Batch.ofRequest body = .ok b
  assemble : b.assemble = .ok x
  enter : (s.gate.enter x.submitter now).1 = .ok ()

/-- The request is let in for one submitter and leaves a submission of another one, who is not listed. -/
def Smuggles (w : Whitelist) (s : Service) (now : Int) (body : ByteArray) : Prop :=
  ∃ b x, s.LetsIn now body b x ∧ ∃ p d y,
    LastFiled s.backend.Leads (s.backend.stored b) p d ∧
    Text.startsWith submissionsPrefix.toList p.toList ∧ Submission.read d p = .ok y ∧
    y.submitter ≠ x.submitter ∧ ¬w.contains y.submitter

/-- The service after requests with their times. -/
def run (s : Service) (l : List (Int × ByteArray)) : Service :=
  l.foldl (fun s r => (s.submit r.1 r.2).2) s

variable {s : Service} {now : Int} {body : ByteArray} {b : Batch} {x : Submission} {w : Whitelist}

theorem backend_save (s : Service) (now : Int) (who : String) (b : Batch) :
    (s.save now who b).2.backend = (s.backend.save b).2 := by
  rcases hx : s.backend.save b with ⟨e | r, y⟩
  · by_cases he : e.isMalformed
    · simp [save, hx, he, refuse]
    · simp [save, hx, he]
  · simp [save, hx]

theorem whitelist_save (s : Service) (now : Int) (who : String) (b : Batch) :
    (s.save now who b).2.gate.whitelist = s.gate.whitelist := by
  rcases hx : s.backend.save b with ⟨e | r, y⟩
  · by_cases he : e.isMalformed
    · simp [save, hx, he, refuse, Gate.release]
    · simp [save, hx, he, Gate.release]
  · simp [save, hx]

theorem backend_submit_of_letsIn (h : s.LetsIn now body b x) :
    (s.submit now body).2.backend = (s.backend.save b).2 := by
  rcases hg : s.gate.enter x.submitter now with ⟨e | _, g⟩
  · have := h.enter
    rw [hg] at this
    contradiction
  · simp [submit, h.read, submitBatch, h.assemble, admitBatch, hg, backend_save]

theorem backend_submit_of_not (h : ∀ b x, ¬s.LetsIn now body b x) :
    (s.submit now body).2.backend = s.backend := by
  rcases hb : Batch.ofRequest body with f | b
  · simp [submit, hb, refuse]
  rcases hx : b.assemble with e | x
  · simp [submit, hb, submitBatch, hx, refuse]
  rcases hg : s.gate.enter x.submitter now with ⟨e | _, g⟩
  · simp [submit, hb, submitBatch, hx, admitBatch, hg]
  · exact absurd ⟨hb, hx, by rw [hg]⟩ (h b x)

theorem whitelist_submit (s : Service) (now : Int) (body : ByteArray) :
    (s.submit now body).2.gate.whitelist = s.gate.whitelist := by
  rcases hb : Batch.ofRequest body with f | b
  · simp [submit, hb, refuse]
  rcases hx : b.assemble with e | x
  · simp [submit, hb, submitBatch, hx, refuse]
  have hw := s.gate.whitelist_enter x.submitter now
  rcases hg : s.gate.enter x.submitter now with ⟨e | _, g⟩
  · simpa [submit, hb, submitBatch, hx, admitBatch, hg] using hw
  · simpa [submit, hb, submitBatch, hx, admitBatch, hg, whitelist_save] using hw

theorem contains_of_letsIn (hw : s.gate.whitelist.map WhitelistCell.load = some w)
    (h : s.LetsIn now body b x) : w.contains x.submitter := by
  have hlisted := Gate.isListed_of_enter_ok h.enter
  obtain ⟨c, hc, rfl⟩ := Option.map_eq_some_iff.1 hw
  simpa [Gate.isListed, hc] using hlisted

/-- One request keeps the store lawful exactly if it smuggles nothing. -/
theorem lawful_submit_iff (hw : s.gate.whitelist.map WhitelistCell.load = some w)
    (hs : s.backend.Lawful w) (now : Int) (body : ByteArray) :
    (s.submit now body).2.backend.Lawful w ↔ ¬s.Smuggles w now body := by
  constructor
  · rintro hl ⟨b, x, hin, p, d, y, hd, hp, hy, -, hn⟩
    refine hn (hl p d y hp ?_ hy)
    rw [backend_submit_of_letsIn hin, Backend.holds_save]
    exact .inl hd
  · intro hsm p d y hp hd hy
    by_cases hin : ∃ b x, s.LetsIn now body b x
    · obtain ⟨b, x, hin⟩ := hin
      rw [backend_submit_of_letsIn hin, Backend.holds_save] at hd
      rcases hd with hd | ⟨hd, -⟩
      · by_contra hn
        have hx : w.contains x.submitter := contains_of_letsIn hw hin
        have hne : y.submitter ≠ x.submitter := fun e => hn (e ▸ hx)
        exact hsm ⟨b, x, hin, p, d, y, hd, hp, hy, hne, hn⟩
      · exact hs p d y hp hd hy
    · rw [backend_submit_of_not (by simpa using hin)] at hd
      exact hs p d y hp hd hy

theorem run_concat (s : Service) (l : List (Int × ByteArray)) (r : Int × ByteArray) :
    s.run (l ++ [r]) = ((s.run l).submit r.1 r.2).2 := by
  simp [run]

theorem whitelist_run (s : Service) (l : List (Int × ByteArray)) :
    (s.run l).gate.whitelist = s.gate.whitelist := by
  induction l generalizing s with
  | nil => rfl
  | cons r l ih =>
    have := ih (s.submit r.1 r.2).2
    rwa [whitelist_submit] at this

/-- The store holds submissions of listed submitters only, at all times, exactly if no request smuggles
another one in. -/
theorem lawful_iff_no_smuggling (hw : s.gate.whitelist.map WhitelistCell.load = some w)
    (hs : s.backend.Lawful w) (l : List (Int × ByteArray)) :
    (∀ k, k <+: l → (s.run k).backend.Lawful w) ↔
      ∀ k now body, k ++ [(now, body)] <+: l → ¬(s.run k).Smuggles w now body := by
  have hstep (k : List (Int × ByteArray)) (hk : (s.run k).backend.Lawful w) (now : Int)
      (body : ByteArray) : (s.run (k ++ [(now, body)])).backend.Lawful w ↔
        ¬(s.run k).Smuggles w now body := by
    rw [run_concat]
    exact lawful_submit_iff (by rw [whitelist_run, hw]) hk now body
  constructor
  · intro h k now body hk
    exact (hstep k (h k ((List.prefix_append _ _).trans hk)) now body).1 (h _ hk)
  · intro h k
    induction k using List.reverseRecOn with
    | nil => exact fun _ => hs
    | append_singleton k r ih =>
      intro hk
      exact (hstep k (ih ((List.prefix_append _ _).trans hk)) r.1 r.2).2 (h k r.1 r.2 hk)

section TwoBodies

def bobOnly : Whitelist := .ofKeys ["bob"]

/-- A service that keeps in an empty bucket what bob submits. -/
def bobsService : Service where
  backend := .bucket { keyPrefix := "", maxBlockSize := 0, store := {} }
  gate := { whitelist := some ⟨some bobOnly⟩, quota := { limit := 10, window := 10 } }

def alicesPath : String := "submissions/2024-02-01/2024-02-01T12:00:00Z-alice.json"

def alicesBody : ByteArray := "\x7b\"submitter\":\"alice\"\x7d".toUTF8

/-- The bodies of alice and of bob in one request. -/
def bothBodies : ByteArray :=
  ("\x7b\"objects\":\x7b\"submissions/2024-02-01/2024-02-01T12:00:00Z-alice.json\":" ++
    "\"eyJzdWJtaXR0ZXIiOiJhbGljZSJ9\"," ++
    "\"submissions/2024-02-01/2024-02-01T12:00:00Z-bob.json\":" ++
    "\"eyJzdWJtaXR0ZXIiOiJib2IifQ==\"\x7d\x7d").toUTF8

theorem not_holds_bobsService (p : String) (d : ByteArray) : ¬bobsService.backend.Holds p d := by
  simp [bobsService, Backend.Holds, Bucket.Holds]

theorem lawful_iff_no_smuggling_bobsService :
    bobsService.gate.whitelist.map WhitelistCell.load = some bobOnly ∧
    bobsService.backend.Lawful bobOnly ∧
    ((∀ k, k <+: [(0, bothBodies)] → (bobsService.run k).backend.Lawful bobOnly) ↔
      ∀ k now body, k ++ [(now, body)] <+: [(0, bothBodies)] →
        ¬(bobsService.run k).Smuggles bobOnly now body) := by
  have hs : bobsService.backend.Lawful bobOnly :=
    fun p d _ _ hd _ => absurd hd (not_holds_bobsService p d)
  exact ⟨rfl, hs, lawful_iff_no_smuggling rfl hs [(0, bothBodies)]⟩

/-- The service of bob holds nothing, and after the request also what alice submits. -/
theorem alice_smuggled :
    bobsService.gate.whitelist.map WhitelistCell.load = some bobOnly ∧
    (∀ p d, ¬bobsService.backend.Holds p d) ∧
    ¬(bobsService.run [(0, bothBodies)]).backend.Lawful bobOnly := by
  refine ⟨rfl, not_holds_bobsService, fun hl => ?_⟩
  have hread : (Submission.read alicesBody alicesPath).toOption.map (·.submitter) = some "alice" := by
    decide +kernel
  have hholds : (bobsService.run [(0, bothBodies)]).backend.Holds alicesPath alicesBody := by
    decide +kernel
  cases hr : Submission.read alicesBody alicesPath with
  | error e =>
    rw [hr] at hread
    contradiction
  | ok y =>
    rw [hr] at hread
    have hy : y.submitter = "alice" := Option.some.inj hread
    have hin := hl alicesPath alicesBody y (by decide) hholds hr
    rw [hy] at hin
    exact absurd hin (by decide)

end TwoBodies

end Service

end Rollcall
