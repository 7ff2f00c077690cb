import Rollcall.Proofs.Json.Shape
import Rollcall.Proofs.Ledger
import Rollcall.Submission.Assembly
import Rollcall.Submission.Request

/-! A request that is written for a batch reads back as the batch, whatever its paths and its bytes are. The
artifacts are filed one by one in the order in which they were written, which is that of their paths, so what
is filed in the end is the batch itself. -/

namespace Rollcall.Batch

open Json Json.Reader

theorem run_artifact (path : String) (d : ByteArray) (b : Batch) (r : Input) :
    (artifact path b).run (58 :: Text.octets (Json.text (Base64.encode d)) ++ r) =
      .ok (b.insert path d, r) := by
  rw [List.cons_append, artifact, run_bind_of_ok (run_colon _)]
  exact run_map_of_ok (run_bytes d r)

/-- The members of the object of artifacts. -/
def artifactMembers (l : List (String × ByteArray)) : List (String × String) :=
  l.map fun e => (e.1, Json.text (Base64.encode e.2))

theorem leads_artifactMembers (l : List (String × ByteArray)) (b : Batch) :
    Leads artifact b (artifactMembers l) (l.foldl (fun t e => t.insert e.1 e.2) b) := by
  induction l generalizing b with
  | nil => exact .nil b
  | cons e l ih => exact .cons (fun r _ => run_artifact e.1 e.2 b r) (ih (b.insert e.1 e.2))

theorem toRequest_eq (b : Batch) :
    b.toRequest = Json.object [("objects", Json.object (artifactMembers b.entries))] := rfl

theorem run_artifacts (b : Batch) (r : Input) :
    artifacts.run (Text.octets (Json.object (artifactMembers b.entries)) ++ r) = .ok (b, r) := by
  obtain ⟨s, hs, hrun⟩ := run_members (leads_artifactMembers b.entries .empty) r
  have hfiled : b.entries.foldl (fun t e => t.insert e.1 e.2) .empty = b := b.ofList_entries
  rw [hfiled] at hrun
  rw [hs, List.cons_append]
  exact run_braced hrun

theorem leads_requestMember (b : Batch) :
    Leads requestMember none [("objects", Json.object (artifactMembers b.entries))] (some b) :=
  .cons (fun r _ => run_once (run_artifacts b r)) (.nil _)

theorem run_request (b : Batch) : request.run (Text.octets b.toRequest) = .ok (b, []) := by
  obtain ⟨s, hs, hrun⟩ := run_members (leads_requestMember b) []
  rw [List.append_nil] at hrun
  have hrequired : (members requestMember none >>= required).run s = .ok (b, []) := by
    rw [run_bind_of_ok hrun]
    rfl
  rw [toRequest_eq, hs]
  exact run_braced hrequired

/-- A written request gives its batch back, and so whatever the batch is assembled to. -/
theorem ofRequest_toRequest (b : Batch) :
    ofRequest b.toRequest.toUTF8 = .ok b ∧
      (ofRequest b.toRequest.toUTF8).map assemble = .ok b.assemble := by
  have hread : ofRequest b.toRequest.toUTF8 = .ok b := by
    show request.all (Text.octets b.toRequest) = .ok b
    rw [Reader.all, run_request]
    rfl
  exact ⟨hread, by rw [hread]; rfl⟩

end Rollcall.Batch
