import Rollcall.Submission.Body

/-! A batch is assembled into the one submission that it stands for: the last body that reads, without
a block of its own, and the last block. A batch that names no submitter stands for nothing. -/

namespace Rollcall

namespace Batch

/-- The bodies that read, in the order of their paths. -/
def bodies (b : Batch) : List Submission :=
  (b.underPrefix submissionsPrefix).filterMap fun e => (Submission.read e.2 e.1).toOption

def blocks (b : Batch) : List Block :=
  (b.underPrefix blocksPrefix).map fun e => Block.read e.2 e.1

def assemble (b : Batch) : Except ArtifactError Submission :=
  let body := (b.bodies.getLast?.map (·.withoutRawBlock)).getD {}
  let s := match b.blocks.getLast? with
    | some k => { body with blockHash := k.hash, rawBlock := some k.raw }
    | none => body
  if s.submitter.isEmpty then .error .noValidSubmission else .ok s

end Batch

end Rollcall
