import StyleSplit.Proofs.Command.Files

/-! Runs of the command on a tree: what one input leaves of another. -/

namespace StyleSplit

def Report.writes (report : Report) : List (Place × Contents) :=
  report.outcome.artifacts.map Place.write

namespace Tree

variable {tree later : Tree} {job : Job} {options : Options}

end Tree

namespace Job

variable {job : Job} {tree final : Tree}

end Job

end StyleSplit
