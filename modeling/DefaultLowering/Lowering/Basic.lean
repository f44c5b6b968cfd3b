import DefaultLowering.Lowering.Retarget

/-!
# Lowering a program

Lowering gives implementing classes their forwarders and then retargets every use of a default method.
The order matters: the classes are complete before any call is looked at.
-/

namespace DefaultLowering

/-- What a run did. -/
structure Summary where
  /-- The twins made, in order. -/
  twins : List MethodRef
  /-- The forwarders added, in order. -/
  forwarders : List MethodRef
  counts : RetargetCounts
  deriving DecidableEq, Repr, Inhabited

/-- The run changed the program. -/
def Summary.changed (s : Summary) : Bool :=
  !s.twins.isEmpty || !s.forwarders.isEmpty || s.counts.calls > 0 || s.counts.fragments > 0

/-- What a run leaves: the program, the name cache, and a summary or the fault that stopped it. -/
structure Lowered where
  program : Program
  cache : NameCache
  outcome : Except Fault Summary

/-- Lowers a program. -/
def Program.lower (p : Program) (cache : NameCache) : Lowered :=
  let forwarded := Forwarding.run p {}
  match forwarded.fault with
  | some fault => ⟨forwarded.program, cache, .error fault⟩
  | none =>
    let walked := forwarded.program.retargetAll { twinLog := forwarded.twinLog, cache := cache }
    let outcome := match walked.fault with
      | some fault => .error fault
      | none =>
        .ok { twins := walked.user.twinLog.made
              forwarders := forwarded.forwarders
              counts := walked.user.counts }
    ⟨walked.program, walked.user.cache, outcome⟩

end DefaultLowering
