import OpxCommonUtils.Radix.Walk

/-!
# Version walks that remove heads (`src/std_radix.c`)

`std_radix_versionwalk` as its caller sees it: the callback is handed one head after another, may
take it out of the table, and stops the walk by what it returns. The last thing a walk does is to
read the head it returns, in a node that it may have freed.
-/

namespace OpxCommonUtils.Radix

/-- What a callback does with the head it is handed, after the calls there have been: whether it
removes the head, and what it returns. -/
abbrev Callback := List (Ptr × Bool) → Ptr → Bool × Int

/-- What a walk comes to: the calls there have been, each with whether it removed its head, the head
it returns, or the fault of reading it, and the table that is left. -/
structure WalkedWith where
  calls : List (Ptr × Bool)
  answer : Exec Ptr
  rtt : RtTable

/-- A version walk goes on to its end. -/
def TableState.runWith (user : Callback) :
    Nat → List (Ptr × Bool) → TableState → Exec WalkedWith
  | 0, _, _ => .error .diverges
  | fuel + 1, past, s =>
    match s.control with
    | .outside => .ok ⟨past, .ok NULL, s.rtt⟩
    | .callback w => do
      let n ← s.rtt.nodes.deref w.rtn
      let (removes, ret) := user past n.rtnRth
      let s ← if removes then s.exec (.remove n.rtnRth) else pure s
      let s ← s.exec (.callbackReturn ret)
      s.runWith user fuel (past ++ [(n.rtnRth, removes)])
    | .loop _ | .climb .. => do
      let s' ← s.exec .round
      if s'.control = .outside then return ⟨past, s.returned s', s'.rtt⟩
      else s'.runWith user fuel past

end OpxCommonUtils.Radix
