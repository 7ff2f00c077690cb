import Rollcall.Proofs.Service.Whitelist

/-! What the counters tell about submissions. The handler is left in many ways, and on each of them the
submission is counted as what its answer says. While batches are saved, other requests come in and leave; the
counters add up at any time, with those that wait for their answers. -/

namespace Rollcall

namespace RejectReason

/-- The status of the answers that turn away for this reason. -/
def status : RejectReason → Nat
  | .whitelist => 401
  | .rateLimit => 429
  | .malformed => 400

end RejectReason

/-- From the first counters to the second, an answer was counted, with so many arrivals and saves. -/
structure Metrics.Counts (m : Metrics) (r : Reply) (arrivals saves : Nat) (m' : Metrics) : Prop where
  status : r.status ∈ [200, 400, 401, 429, 500]
  received : m'.received = m.received + arrivals
  accepted : m'.accepted = m.accepted + if r.status = 200 then 1 else 0
  rejected : ∀ x : RejectReason, m'.rejected x = m.rejected x + if r.status = x.status then 1 else 0
  saveFailures : m'.saveFailures = m.saveFailures + if r.status = 500 then 1 else 0
  measuredSaves : m'.measuredSaves = m.measuredSaves + saves

namespace Metrics

/-- The submissions that are counted as what they were answered. -/
def settled (m : Metrics) : Nat :=
  m.accepted + (m.rejected .whitelist + m.rejected .rateLimit + m.rejected .malformed) + m.saveFailures

variable {m m' : Metrics} {r : Reply} {arrivals saves : Nat}

theorem counts_reject (m : Metrics) {x : RejectReason} (hr : r.status = x.status) :
    m.Counts r 0 0 (m.reject x) where
  status := by cases x <;> simp [hr, RejectReason.status]
  received := rfl
  accepted := by cases x <;> simp [hr, reject, RejectReason.status]
  rejected y := by cases x <;> cases y <;> simp [hr, reject, RejectReason.status]
  saveFailures := by cases x <;> simp [hr, reject, RejectReason.status]
  measuredSaves := rfl

theorem counts_recordSave (m : Metrics) (report : SaveReport) : m.Counts .ok 0 0 (m.recordSave report) where
  status := by simp [Reply.status]
  received := rfl
  accepted := rfl
  rejected x := by cases x <;> rfl
  saveFailures := rfl
  measuredSaves := rfl

theorem counts_failure (m : Metrics) :
    m.Counts .failed 0 0 { m with saveFailures := m.saveFailures + 1 } where
  status := by simp [Reply.status]
  received := rfl
  accepted := rfl
  rejected x := by cases x <;> rfl
  saveFailures := rfl
  measuredSaves := rfl

theorem Counts.arrived (h : { m with received := m.received + 1 }.Counts r arrivals saves m') :
    m.Counts r (arrivals + 1) saves m' :=
  { h with received := by rw [h.received, Nat.add_assoc, Nat.add_comm 1] }

theorem Counts.saved (h : { m with measuredSaves := m.measuredSaves + 1 }.Counts r arrivals saves m') :
    m.Counts r arrivals (saves + 1) m' :=
  { h with measuredSaves := by rw [h.measuredSaves, Nat.add_assoc, Nat.add_comm 1] }

/-- An answer is counted in one place. -/
theorem Counts.settled_eq (h : m.Counts r arrivals saves m') : m'.settled = m.settled + 1 := by
  have hone := h.status
  simp only [List.mem_cons, List.not_mem_nil, or_false] at hone
  rw [settled, settled, h.accepted, h.rejected, h.rejected, h.rejected, h.saveFailures]
  rcases hone with hr | hr | hr | hr | hr <;> simp only [hr, RejectReason.status] <;> simp <;> omega

end Metrics

namespace Service

/-- A submission that the gate has let in, as long as it is not answered. -/
structure Waiting where
  time : Int
  submitter : String
  batch : Batch

/-- Deals with a submission until it is answered or goes to be saved. -/
def arrive (s : Service) (now : Int) (body : ByteArray) : (Reply ⊕ Waiting) × Service :=
  let s := { s with metrics := { s.metrics with received := s.metrics.received + 1 } }
  match Batch.ofRequest body with
  | .error f => (s.refuse (.unreadable f)).map .inl id
  | .ok b => match b.assemble with
    | .error e => (s.refuse (.malformed (.artifact e))).map .inl id
    | .ok x => match s.gate.enter x.submitter now with
      | (.error r, gate) =>
        (.inl (.rejected r), { s with gate, metrics := s.metrics.reject (.ofRejection r) })
      | (.ok _, gate) => (.inr ⟨now, x.submitter, b⟩, { s with gate })

/-- Saves what waits for it, and answers. -/
def finish (s : Service) (w : Waiting) : Reply × Service := s.save w.time w.submitter w.batch

/-- The gate lets the submission in. -/
def letsIn (s : Service) (now : Int) (body : ByteArray) : Bool :=
  match Batch.ofRequest body with
  | .error _ => false
  | .ok b => match b.assemble with
    | .error _ => false
    | .ok x => (s.gate.enter x.submitter now).1 matches .ok _

variable {s : Service} {now : Int} {body : ByteArray}

/-- A submission is answered when it arrives, or when it is saved. -/
theorem submit_eq (s : Service) (now : Int) (body : ByteArray) :
    s.submit now body = match s.arrive now body with
      | (.inl r, s) => (r, s)
      | (.inr w, s) => s.finish w := by
  rw [submit, arrive]
  rcases Batch.ofRequest body with f | b
  · rfl
  simp only [submitBatch]
  rcases b.assemble with e | x
  · rfl
  simp only [admitBatch]
  rcases s.gate.enter x.submitter now with ⟨r | _, g⟩ <;> rfl

/-- Who arrives is answered and counted at once, or let in and counted later. -/
theorem arrive_cases (s : Service) (now : Int) (body : ByteArray) :
    (∃ r s', s.arrive now body = (.inl r, s') ∧ s.letsIn now body = false ∧
      s.metrics.Counts r 1 0 s'.metrics) ∨
    ∃ w s', s.arrive now body = (.inr w, s') ∧ s.letsIn now body ∧
      s'.metrics = { s.metrics with received := s.metrics.received + 1 } := by
  rcases hb : Batch.ofRequest body with f | b
  · refine .inl ⟨_, (s.arrive now body).2, by rw [arrive, hb]; rfl, by rw [letsIn, hb], ?_⟩
    rw [arrive, hb]
    exact (Metrics.counts_reject _ rfl).arrived
  rcases hx : b.assemble with e | x
  · refine .inl ⟨.malformed (.artifact e), (s.arrive now body).2, ?_, by simp [letsIn, hb, hx], ?_⟩
    · simp only [arrive, hb, hx]
      rfl
    · simp only [arrive, hb, hx]
      exact (Metrics.counts_reject _ rfl).arrived
  rcases hg : s.gate.enter x.submitter now with ⟨e | _, g⟩
  · refine .inl ⟨.rejected e, (s.arrive now body).2, ?_, by simp [letsIn, hb, hx, hg], ?_⟩
    · simp only [arrive, hb, hx, hg]
    · simp only [arrive, hb, hx, hg]
      exact (Metrics.counts_reject _ (by cases e <;> rfl)).arrived
  · refine .inr ⟨⟨now, x.submitter, b⟩, (s.arrive now body).2, ?_, by simp [letsIn, hb, hx, hg], ?_⟩
    · simp only [arrive, hb, hx, hg]
    · simp only [arrive, hb, hx, hg]

theorem counts_finish (s : Service) (w : Waiting) :
    s.metrics.Counts (s.finish w).1 0 1 (s.finish w).2.metrics := by
  rcases hx : s.backend.save w.batch with ⟨e | report, y⟩
  · by_cases he : e.isMalformed
    · simp only [finish, save, hx, he, if_true]
      exact (Metrics.counts_reject _ rfl).saved
    · simp only [finish, save, hx, he]
      exact (Metrics.counts_failure _).saved
  · simp only [finish, save, hx]
    exact (Metrics.counts_recordSave _ report).saved

/-- What befalls a service: a submission is answered before anything else happens, or it arrives and is
answered later, or somebody else changes the gate and the store. -/
inductive Event where
  | submit (now : Int) (body : ByteArray)
  | arrive (now : Int) (body : ByteArray)
  | finish (i : Nat)
  | change (gate : Gate) (backend : Backend)

def Event.isRequest : Event → Bool
  | submit .. | arrive .. => true
  | finish _ | change .. => false

/-- A service with the submissions that wait for their answers, all answers so far, and the number of
submissions that the gate has let in. -/
structure Desk where
  service : Service
  waiting : List Waiting := []
  answers : List Reply := []
  passed : Nat := 0

namespace Desk

def step (d : Desk) : Event → Desk
  | .submit now body =>
    let (r, service) := d.service.submit now body
    { d with service, answers := d.answers ++ [r], passed := d.passed + (d.service.letsIn now body).toNat }
  | .arrive now body =>
    let passed := d.passed + (d.service.letsIn now body).toNat
    match d.service.arrive now body with
    | (.inl r, service) => { d with service, answers := d.answers ++ [r], passed }
    | (.inr w, service) => { d with service, waiting := d.waiting ++ [w], passed }
  | .finish i => match d.waiting[i]? with
    | none => d
    | some w =>
      let (r, service) := d.service.finish w
      { d with service, waiting := d.waiting.eraseIdx i, answers := d.answers ++ [r] }
  | .change gate backend => { d with service := { d.service with gate, backend } }

def run (d : Desk) (l : List Event) : Desk := l.foldl step d

end Desk

/-- How many answers have the status. -/
def answered (l : List Reply) (status : Nat) : Nat := l.countP (·.status = status)

/-- The counters agree with the answers to so many requests, of which some are not answered yet. -/
structure Tallies (m : Metrics) (l : List Reply) (waiting passed requests : Nat) : Prop where
  received : m.received = requests
  settled : m.received = m.settled + waiting
  length : m.settled = l.length
  accepted : m.accepted = answered l 200
  rejected : ∀ x : RejectReason, m.rejected x = answered l x.status
  saveFailures : m.saveFailures = answered l 500
  measuredSaves : m.measuredSaves + waiting = passed

section Tallies

variable {m m' : Metrics} {l : List Reply} {arrivals waiting passed requests : Nat} {r : Reply}

theorem answered_concat (l : List Reply) (r : Reply) (n : Nat) :
    answered (l ++ [r]) n = answered l n + if r.status = n then 1 else 0 := by
  simp [answered, List.countP_cons]

/-- An answer to a new request, or to one that was waiting and is saved now. -/
theorem Tallies.answer {left saves : Nat} (h : Tallies m l waiting passed requests)
    (hm : m.Counts r arrivals saves m') (hleft : waiting + arrivals = left + 1)
    (hsaves : left + saves = waiting) :
    Tallies m' (l ++ [r]) left passed (requests + arrivals) where
  received := by rw [hm.received, h.received]
  settled := by
    have := h.settled
    rw [hm.received, hm.settled_eq]
    omega
  length := by rw [hm.settled_eq, h.length, List.length_append, List.length_singleton]
  accepted := by rw [hm.accepted, h.accepted, answered_concat]
  rejected x := by rw [hm.rejected, h.rejected, answered_concat]
  saveFailures := by rw [hm.saveFailures, h.saveFailures, answered_concat]
  measuredSaves := by
    have := h.measuredSaves
    rw [hm.measuredSaves]
    omega

theorem Tallies.letIn (h : Tallies m l waiting passed requests) :
    Tallies { m with received := m.received + 1 } l (waiting + 1) (passed + 1) (requests + 1) where
  received := by rw [h.received]
  settled := by
    have hsettled := h.settled
    have hsame : { m with received := m.received + 1 }.settled = m.settled := rfl
    rw [hsame]
    show m.received + 1 = m.settled + (waiting + 1)
    omega
  length := h.length
  accepted := h.accepted
  rejected := h.rejected
  saveFailures := h.saveFailures
  measuredSaves := by
    have := h.measuredSaves
    show m.measuredSaves + (waiting + 1) = passed + 1
    omega

end Tallies

namespace Desk

/-- The counters of the service agree with its answers. -/
def Balanced (d : Desk) (requests : Nat) : Prop :=
  Tallies d.service.metrics d.answers d.waiting.length d.passed requests

theorem Balanced.step {d : Desk} {requests : Nat} (h : d.Balanced requests) (e : Event) :
    (d.step e).Balanced (requests + e.isRequest.toNat) := by
  cases e with
  | submit now body =>
    rw [Desk.step, submit_eq]
    rcases d.service.arrive_cases now body with ⟨r, s, harrive, hin, hm⟩ | ⟨w, s, harrive, hin, hm⟩
    · rw [harrive, hin]
      exact h.answer hm rfl rfl
    · rw [harrive, hin]
      have hw : Tallies s.metrics d.answers (d.waiting.length + 1) (d.passed + 1) (requests + 1) := hm ▸ h.letIn
      exact hw.answer (s.counts_finish w) rfl rfl
  | arrive now body =>
    rw [Desk.step]
    rcases d.service.arrive_cases now body with ⟨r, s, harrive, hin, hm⟩ | ⟨w, s, harrive, hin, hm⟩
    · rw [harrive, hin]
      exact h.answer hm rfl rfl
    · rw [harrive, hin]
      have hlength : (d.waiting ++ [w]).length = d.waiting.length + 1 := by simp
      show Tallies s.metrics d.answers (d.waiting ++ [w]).length (d.passed + 1) (requests + 1)
      rw [hm, hlength]
      exact h.letIn
  | finish i =>
    rw [Desk.step]
    rcases hi : d.waiting[i]? with _ | w
    · exact h
    · have hlt : i < d.waiting.length := (List.getElem?_eq_some_iff.1 hi).1
      have hleft : (d.waiting.eraseIdx i).length + 1 = d.waiting.length := by
        rw [List.length_eraseIdx_of_lt hlt]
        omega
      exact h.answer (d.service.counts_finish w) hleft.symm hleft
  | change gate backend => exact h

theorem Balanced.run {d : Desk} {requests : Nat} (h : d.Balanced requests) (l : List Event) :
    (d.run l).Balanced (requests + l.countP Event.isRequest) := by
  induction l generalizing d requests with
  | nil => exact h
  | cons e l ih =>
    have hcount : (e :: l).countP Event.isRequest = e.isRequest.toNat + l.countP Event.isRequest := by
      rw [List.countP_cons, Nat.add_comm]
      cases e.isRequest <;> rfl
    rw [hcount, ← Nat.add_assoc]
    exact ih (h.step e)

theorem balanced_new (backend : Backend) (gate : Gate) : Balanced { service := { backend, gate } } 0 where
  received := rfl
  settled := rfl
  length := rfl
  accepted := rfl
  rejected _ := rfl
  saveFailures := rfl
  measuredSaves := rfl

end Desk

/-- Of any submissions, once all are answered, each is counted once, as what it was answered, and those that
the gate has let in are counted as saves. -/
theorem counted_once {backend : Backend} {gate : Gate} {l : List Event} {d : Desk}
    (hd : Desk.run { service := { backend, gate } } l = d) (hall : d.waiting = []) :
    d.service.metrics.received = l.countP Event.isRequest ∧
    d.service.metrics.received = d.service.metrics.accepted + (d.service.metrics.rejected .whitelist +
      d.service.metrics.rejected .rateLimit + d.service.metrics.rejected .malformed) +
      d.service.metrics.saveFailures ∧
    d.service.metrics.received = d.answers.length ∧
    d.service.metrics.accepted = answered d.answers 200 ∧
    d.service.metrics.rejected .whitelist = answered d.answers 401 ∧
    d.service.metrics.rejected .rateLimit = answered d.answers 429 ∧
    d.service.metrics.rejected .malformed = answered d.answers 400 ∧
    d.service.metrics.saveFailures = answered d.answers 500 ∧
    d.service.metrics.measuredSaves = d.passed := by
  have h := (Desk.balanced_new backend gate).run l
  rw [hd, Desk.Balanced, hall, Nat.zero_add] at h
  refine ⟨h.received, h.settled, h.settled.trans h.length, h.accepted, h.rejected .whitelist,
    h.rejected .rateLimit, h.rejected .malformed, h.saveFailures, h.measuredSaves⟩

section TwoAtOnce

/-- Two submissions of bob at once and one that is no request; the later one of the two is saved first. -/
def twoAtOnce : List Event :=
  [.arrive 0 bothBodies, .arrive 1 bothBodies, .submit 2 "bob".toUTF8, .finish 1, .finish 0]

def bobsDesk : Desk :=
  Desk.run { service := { backend := bobsService.backend, gate := bobsService.gate } } twoAtOnce

theorem counted_once_bobsDesk :
    bobsDesk.waiting = [] ∧ bobsDesk.answers.map Reply.status = [400, 200, 200] ∧
    bobsDesk.service.metrics.received = 3 ∧
    bobsDesk.service.metrics.accepted = answered bobsDesk.answers 200 ∧
    bobsDesk.service.metrics.rejected .malformed = answered bobsDesk.answers 400 ∧
    bobsDesk.service.metrics.measuredSaves = bobsDesk.passed := by
  have hall : bobsDesk.waiting = [] := List.isEmpty_iff.1 (by decide +kernel)
  obtain ⟨hreceived, -, -, haccepted, -, -, hmalformed, -, hsaves⟩ := counted_once (d := bobsDesk) rfl hall
  exact ⟨hall, by decide +kernel, hreceived, haccepted, hmalformed, hsaves⟩

end TwoAtOnce

end Service

end Rollcall
