import DefaultLowering.Lowering.Basic
import DefaultLowering.Lowering.Verification

/-!
# Runs of the pass

A run lowers a program and, on demand, checks the result.  A run that fails the check has a summary all
the same; one that meets a fault has none, and its program is to be thrown away.
-/

namespace DefaultLowering

/-- Why a run failed. -/
inductive RunError where
  | fault (f : Fault)
  | unverified (problems : List Problem)

/-- The wording of an error. -/
def RunError.message : RunError → String
  | .fault f => f.message
  | .unverified problems => problemsMessage problems

/-- What a run leaves. -/
structure Run where
  program : Program
  cache : NameCache
  summary : Option Summary
  error : Option RunError

/-- Lowers a program, and checks it if asked. -/
def Program.run (p : Program) (check : Bool) (cache : NameCache) : Run :=
  let lowered := p.lower cache
  match lowered.outcome with
  | .error f => ⟨lowered.program, lowered.cache, none, some (.fault f)⟩
  | .ok summary =>
    if !check then ⟨lowered.program, lowered.cache, some summary, none⟩
    else
      match lowered.program.verify lowered.cache with
      | ([], cache) => ⟨lowered.program, cache, some summary, none⟩
      | (problems, cache) =>
        ⟨lowered.program, cache, some summary, some (.unverified problems)⟩

end DefaultLowering
