import Rollcall.Proofs.Text.Split
import Rollcall.Submission.Path

/-! The paths of blocks. The last name of a path stands behind its last slash, and the ending `.dat` is cut off at the
last dot of it, so that no dot of the hash is in the way and a hash of dots alone is still a name. What is read back
from the path of a block is the part of its hash behind the last slash. Where this is empty the ending is left alone
behind the slash, and with its dot in front it is itself taken for the name. -/

namespace Rollcall.Block

/-- The last name of a path stands behind its last slash, unless it names nothing. -/
theorem lastName?_append_cons (p : List Char) {n : List Char} (hslash : '/' ∉ n) (hne : n ≠ [])
    (hdot : n ≠ ['.']) : lastName? (p ++ '/' :: n) = some n := by
  obtain ⟨first, r, hfirst⟩ := List.exists_cons_of_ne_nil (Text.splitOn_ne_nil '/' p)
  have hparts : Text.splitOn '/' (p ++ '/' :: n) = first :: (r ++ [n]) := by
    rw [Text.splitOn_append_cons, hfirst, Text.splitOn_of_not_mem hslash, List.cons_append]
  have hnamed : (r ++ [n]).filter (fun q => decide (q ≠ [] ∧ q ≠ ['.'])) =
      r.filter (fun q => decide (q ≠ [] ∧ q ≠ ['.'])) ++ [n] := by
    simp [hne, hdot]
  rw [lastName?, hparts]
  simp only [hnamed]
  split
  · exact List.getLast?_concat
  · exact (congrArg List.getLast? (List.cons_append ..).symm).trans List.getLast?_concat

/-- An ending is cut off at its dot, unless nothing stands in front of it. -/
theorem stem_append_cons (s : List Char) {ending : List Char} (hdot : '.' ∉ ending) :
    stem (s ++ '.' :: ending) = if s = [] then '.' :: ending else s := by
  rw [stem, Text.splitLast?_append_cons s hdot]
  cases s <;> rfl

/-- What stands behind the last slash of a text. -/
def behindSlash (s : List Char) : List Char := (Text.splitLast? '/' s).elim s (·.2)

theorem slash_not_mem_behindSlash (s : List Char) : '/' ∉ behindSlash s := by
  rw [behindSlash]
  rcases h : Text.splitLast? '/' s with _ | ⟨a, b⟩
  · exact Text.splitLast?_eq_none_iff.1 h
  · exact (Text.of_splitLast?_eq_some h).2

theorem behindSlash_of_not_mem {s : List Char} (h : '/' ∉ s) : behindSlash s = s := by
  rw [behindSlash, Text.splitLast?_eq_none_iff.2 h, Option.elim_none]

theorem exists_path_eq (h : String) :
    ∃ p, (path h).toList = p ++ '/' :: (behindSlash h.toList ++ ".dat".toList) := by
  rw [behindSlash]
  rcases hcut : Text.splitLast? '/' h.toList with _ | ⟨a, b⟩
  · exact ⟨"blocks".toList, by simp [path, blocksPrefix]⟩
  · refine ⟨"blocks/".toList ++ a, ?_⟩
    simp [path, blocksPrefix, (Text.of_splitLast?_eq_some hcut).1]

/-- The hash is the stem of the name behind the last slash. -/
theorem read_of_name {path : String} {p n : List Char} (data : ByteArray) (hpath : path.toList = p ++ '/' :: n)
    (hslash : '/' ∉ n) (hne : n ≠ []) (hdot : n ≠ ['.']) (hup : n ≠ ['.', '.']) :
    read data path = ⟨String.ofList (stem n), data⟩ := by
  simp [read, hpath, lastName?_append_cons p hslash hne hdot, hdot, hup]

/-- What is read back for any hash at all. -/
theorem read_path (data : ByteArray) (h : String) : read data (path h) =
    ⟨String.ofList (if behindSlash h.toList = [] then ".dat".toList else behindSlash h.toList), data⟩ := by
  obtain ⟨p, hp⟩ := exists_path_eq h
  have hslash : '/' ∉ behindSlash h.toList ++ ".dat".toList := by simp [slash_not_mem_behindSlash]
  have hne {n : List Char} (hn : 't' ∉ n) : behindSlash h.toList ++ ".dat".toList ≠ n := by
    rintro rfl
    simp at hn
  rw [read_of_name data hp hslash (hne (by decide)) (hne (by decide)) (hne (by decide))]
  exact congrArg (Block.mk · data) (congrArg String.ofList (stem_append_cons _ (by decide)))

example : (["..", ".x", "a.b", "x/"].map fun h => (read .empty (path h)).hash) = ["..", ".x", "a.b", ".dat"] := by
  decide +kernel

/-- A hash is read back from the path of its block exactly if it is one name, whatever dots it has, and the bytes of
the block are left as they are. -/
theorem hash_read_path_iff (data : ByteArray) (h : String) :
    ((read data (path h)).hash = h ↔ h ≠ "" ∧ '/' ∉ h.toList) ∧ (read data (path h)).raw = data := by
  rw [read_path]
  refine ⟨⟨fun hsame => ?_, fun ⟨hne, hslash⟩ => ?_⟩, rfl⟩
  · have htext : (if behindSlash h.toList = [] then ".dat".toList else behindSlash h.toList) = h.toList := by
      simpa using congrArg String.toList hsame
    have hname : h.toList ≠ [] ∧ '/' ∉ h.toList := by
      rw [← htext]
      split
      · decide
      · rename_i hne
        exact ⟨hne, slash_not_mem_behindSlash _⟩
    simpa using hname
  · have hname : h.toList ≠ [] := by simpa using hne
    simp [behindSlash_of_not_mem hslash, hname]

end Rollcall.Block
