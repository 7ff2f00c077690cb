import Rollcall.Proofs.Ledger
import Rollcall.Submission.Assembly

/-! What an assembled batch depends on. Bodies that read and blocks are heeded; whatever else lies in a batch is
passed over, and since a batch is looked through in the order of its paths, it does not matter in which order it
was filed. Noise has paths of its own: an artifact for a path that the batch knows would replace the one there. -/

namespace Rollcall.Batch

/-- A body that reads, or a block. -/
def heeds (e : String × ByteArray) : Bool :=
  Text.startsWith submissionsPrefix.toList e.1.toList && (Submission.read e.2 e.1).toOption.isSome ||
    Text.startsWith blocksPrefix.toList e.1.toList

/-- An artifact that is neither filed with the submissions nor with the blocks, or one of the former whose path or
body does not read. -/
inductive IsNoise (e : String × ByteArray) : Prop where
  | elsewhere : Text.startsWith submissionsPrefix.toList e.1.toList = false →
    Text.startsWith blocksPrefix.toList e.1.toList = false → IsNoise e
  | unreadable (fault : ArtifactError) : Text.startsWith submissionsPrefix.toList e.1.toList →
    Submission.read e.2 e.1 = .error fault → IsNoise e

/-- No path is filed with both. -/
theorem not_startsWith_blocks {path : List Char} (h : Text.startsWith submissionsPrefix.toList path) :
    Text.startsWith blocksPrefix.toList path = false := by
  rw [Text.startsWith, List.isPrefixOf_iff_prefix] at h
  obtain ⟨r, rfl⟩ := h
  rfl

theorem heeds_of_isNoise {e : String × ByteArray} (h : IsNoise e) : heeds e = false := by
  cases h with
  | elsewhere hsubmissions hblocks => simp [heeds, hsubmissions, hblocks]
  | unreadable fault hsubmissions hread =>
    simp [heeds, not_startsWith_blocks hsubmissions, hread, Except.toOption]

variable {b c : Batch}

theorem bodies_filter_heeds (b : Batch) : Batch.bodies (b.filter heeds) = b.bodies := by
  simp only [bodies, underPrefix, Ledger.filter, List.filterMap_filter]
  refine List.filterMap_congr fun e _ => ?_
  by_cases h : Text.startsWith submissionsPrefix.toList e.1.toList
  · cases hread : (Submission.read e.2 e.1).toOption <;> simp [heeds, h, not_startsWith_blocks h, hread]
  · simp [h]

theorem blocks_filter_heeds (b : Batch) : Batch.blocks (b.filter heeds) = b.blocks := by
  have hheeded (e : String × ByteArray) : (Text.startsWith blocksPrefix.toList e.1.toList && heeds e) =
      Text.startsWith blocksPrefix.toList e.1.toList := by
    cases h : Text.startsWith blocksPrefix.toList e.1.toList <;> simp [heeds, h]
  simp only [blocks, underPrefix, Ledger.filter, List.filter_filter, hheeded]

theorem assemble_congr (h : b.filter heeds = c.filter heeds) : b.assemble = c.assemble := by
  have hbodies : b.bodies = c.bodies := by
    rw [← bodies_filter_heeds b, h, bodies_filter_heeds]
  have hblocks : b.blocks = c.blocks := by
    rw [← blocks_filter_heeds b, h, blocks_filter_heeds]
  rw [assemble, assemble, hbodies, hblocks]

/-- A batch that is filed anew, in any order and among noise, is assembled to the same submission, or refused
alike. -/
theorem assemble_among_noise {noise l : List (String × ByteArray)} (hpath : ∀ e ∈ noise, b.get? e.1 = none)
    (hnoise : ∀ e ∈ noise, IsNoise e) (hl : l.Perm (b.entries ++ noise)) :
    Batch.assemble (.ofList l) = b.assemble :=
  assemble_congr (Ledger.filter_ofList hl hpath fun e he => heeds_of_isNoise (hnoise e he))

/-- A submission of alice and her block. -/
def alicesBatch : Batch := .ofList
  [("submissions/2024-01-01/2024-01-01T10:15:30Z-alice.json", "\x7b\"submitter\":\"alice\"\x7d".toUTF8),
    ("blocks/3NKreal.dat", "block".toUTF8)]

/-- A file of no kind, a time that does not read, and a body that breaks off. -/
def litter : List (String × ByteArray) :=
  [("misc/readme.txt", "hello".toUTF8), ("submissions/2024-01-01/garbage-bob.json", "\x7b\x7d".toUTF8),
    ("submissions/2024-01-01/2024-01-01T23:00:00Z-carol.json", "\x7b\"submitter\":".toUTF8)]

/-- Filed backwards, so that the last paths of all come first. -/
theorem assemble_among_noise_alicesBatch :
    ((∀ e ∈ litter, alicesBatch.get? e.1 = none) ∧ (∀ e ∈ litter, IsNoise e) ∧
      (alicesBatch.entries ++ litter).reverse.Perm (alicesBatch.entries ++ litter)) ∧
    Batch.assemble (.ofList (alicesBatch.entries ++ litter).reverse) = alicesBatch.assemble ∧
    (alicesBatch.assemble.map fun s => (s.submitter, s.blockHash)) = .ok ("alice", "3NKreal") := by
  have hpath : ∀ e ∈ litter, alicesBatch.get? e.1 = none := by decide +kernel
  have hnoise : ∀ e ∈ litter, IsNoise e := by
    simp only [litter, List.forall_mem_cons]
    refine ⟨.elsewhere (by decide) (by decide), .unreadable (.timestamp "garbage" .invalid) (by decide) ?_,
      .unreadable (.body .truncated) (by decide) ?_, List.forall_mem_nil _⟩
    · decide +kernel
    · decide +kernel
  have hl := List.reverse_perm (alicesBatch.entries ++ litter)
  exact ⟨⟨hpath, hnoise, hl⟩, assemble_among_noise hpath hnoise hl, by decide +kernel⟩

end Rollcall.Batch
