import Rollcall.Proofs.Ledger
import Rollcall.Submission.Assembly

/-! Whose submission a batch is assembled to. Of the bodies that read the last one decides, in the order of the
paths, and it stands in place of those in front of it as a whole. So a batch is refused where its last body names
nobody, whoever submitted in front of it. Main statement: a batch is refused exactly if none of its bodies names a
submitter, or if the last one that reads names nobody and eclipses one that does. -/

namespace Rollcall.Batch

/-- The submission in an artifact: it is filed with the submissions, and its path and its body read. -/
def submission? (e : String × ByteArray) : Option Submission :=
  if Text.startsWith submissionsPrefix.toList e.1.toList then (Submission.read e.2 e.1).toOption else none

def NamesSubmitter (e : String × ByteArray) : Prop := ∃ s, submission? e = some s ∧ s.submitter ≠ ""

def NamesNobody (e : String × ByteArray) : Prop := ∃ s, submission? e = some s ∧ s.submitter = ""

/-- The last body that reads names nobody, and one in front of it names a submitter. -/
def Eclipsed (b : Batch) : Prop :=
  ∃ last ∈ b.entries, NamesNobody last ∧ (∀ e ∈ b.entries, last.1 < e.1 → submission? e = none) ∧
    ∃ e ∈ b.entries, e.1 < last.1 ∧ NamesSubmitter e

variable {b : Batch} {e : String × ByteArray} {s : Submission}

theorem not_namesNobody_of_namesSubmitter (h : NamesSubmitter e) : ¬NamesNobody e := by
  obtain ⟨s, hs, hsome⟩ := h
  rintro ⟨t, ht, hnone⟩
  rw [hs] at ht
  exact hsome (Option.some.inj ht ▸ hnone)

theorem bodies_eq (b : Batch) : b.bodies = b.entries.filterMap submission? := by
  unfold bodies underPrefix
  rw [List.filterMap_filter]
  rfl

/-- A block has no say in whose the batch is. -/
theorem assemble_error_iff : b.assemble = .error .noValidSubmission ↔
    ∀ s, b.bodies.getLast? = some s → s.submitter = "" := by
  have hsubmitter (s : Submission) : (if s.submitter.isEmpty then .error .noValidSubmission else .ok s :
      Except ArtifactError Submission) = .error .noValidSubmission ↔ s.submitter = "" := by
    split <;> simp_all
  unfold assemble
  rw [hsubmitter]
  cases b.bodies.getLast? <;> cases b.blocks.getLast? <;> simp [Submission.withoutRawBlock]

theorem getLast?_bodies_iff : b.bodies.getLast? = some s ↔
    ∃ last ∈ b.entries, submission? last = some s ∧ ∀ e ∈ b.entries, last.1 < e.1 → submission? e = none := by
  rw [bodies_eq]
  exact b.getLast?_filterMap_entries_iff submission?

/-- Where the last body that reads names nobody, one that names a submitter stands in front of it. -/
theorem lt_of_namesSubmitter {last : String × ByteArray} (hlast : last ∈ b.entries) (hnobody : NamesNobody last)
    (hbehind : ∀ e ∈ b.entries, last.1 < e.1 → submission? e = none) (he : e ∈ b.entries) (h : NamesSubmitter e) :
    e.1 < last.1 := by
  by_contra hn
  by_cases hlt : last.1 < e.1
  · obtain ⟨s, hs, -⟩ := h
    rw [hbehind e he hlt] at hs
    contradiction
  · have hkey : last.1 = e.1 := KeyOrder.eq_of_not_lt hlt hn
    have hsame : last = e := by
      have hvalue := b.get?_eq_some_iff.2 he
      rw [← hkey, b.get?_eq_some_iff.2 hlast] at hvalue
      exact Prod.ext hkey (Option.some.inj hvalue)
    exact not_namesNobody_of_namesSubmitter h (hsame ▸ hnobody)

/-- A batch is refused exactly if nobody submitted it, or if its last body eclipses those who did. -/
theorem refused_iff_unnamed_or_eclipsed (b : Batch) : b.assemble = .error .noValidSubmission ↔
    (∀ e ∈ b.entries, ¬NamesSubmitter e) ∨ b.Eclipsed := by
  rw [assemble_error_iff]
  constructor
  · intro hlast
    by_cases hnone : ∀ e ∈ b.entries, ¬NamesSubmitter e
    · exact .inl hnone
    obtain ⟨e, he, hnames⟩ : ∃ e ∈ b.entries, NamesSubmitter e := by simpa using hnone
    have ⟨x, hx, _⟩ := hnames
    have hread : x ∈ b.bodies := by
      rw [bodies_eq]
      exact List.mem_filterMap.2 ⟨e, he, hx⟩
    obtain ⟨s, hs⟩ := Option.isSome_iff_exists.1 (List.getLast?_isSome.2 (List.ne_nil_of_mem hread))
    obtain ⟨last, hmem, hsub, hbehind⟩ := getLast?_bodies_iff.1 hs
    have hnobody : NamesNobody last := ⟨s, hsub, hlast s hs⟩
    exact .inr ⟨last, hmem, hnobody, hbehind, e, he, lt_of_namesSubmitter hmem hnobody hbehind he hnames, hnames⟩
  · rintro (hnone | ⟨last, hmem, ⟨t, ht, hempty⟩, hbehind, -⟩) s hs
    · obtain ⟨last, hmem, hsub, -⟩ := getLast?_bodies_iff.1 hs
      by_contra hne
      exact hnone last hmem ⟨s, hsub, hne⟩
    · have hlast := getLast?_bodies_iff.2 ⟨last, hmem, ht, hbehind⟩
      rw [hs] at hlast
      exact Option.some.inj hlast ▸ hempty

/-- A submission of alice, and behind it one of the same second that names nobody. -/
def eclipsedBatch : Batch := .ofList
  [("submissions/2024-02-01/2024-02-01T12:00:00Z-alice.json", "\x7b\"submitter\":\"alice\"\x7d".toUTF8),
    ("submissions/2024-02-01/2024-02-01T12:00:00Z-bob.json", "\x7b\x7d".toUTF8)]

theorem eclipsedBatch_refused :
    (∃ e ∈ eclipsedBatch.entries, NamesSubmitter e) ∧ eclipsedBatch.assemble = .error .noValidSubmission := by
  have halice : (eclipsedBatch.entries.head?.bind submission?).map (·.submitter) = some "alice" := by
    decide +kernel
  have hrefused : eclipsedBatch.assemble = .error .noValidSubmission := by decide +kernel
  obtain ⟨s, hs, hname⟩ := Option.map_eq_some_iff.1 halice
  obtain ⟨e, he, hread⟩ := Option.bind_eq_some_iff.1 hs
  exact ⟨⟨e, List.mem_of_head? he, s, hread, by rw [hname]; decide⟩, hrefused⟩

end Rollcall.Batch
