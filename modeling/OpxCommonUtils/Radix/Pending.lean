import OpxCommonUtils.Radix.ChangeList

/-!
# Reading the change list (`src/std_radical.c`)

The heads on the list one after the other, and the version of the next head behind a marker. The
items that are handed in are linked.
-/

namespace OpxCommonUtils.Radix.RtTable

/-- The loop that passes over markers (`std_radical.c:142-149` and `:160-167`). -/
def skipDummies (rtt : RtTable) : Nat → Ptr → Exec Ptr
  | 0, _ => .error .diverges
  | fuel + 1, rth =>
    if rth = NULL then .ok NULL
    else if (rtt.heads rth).isdummy then
      rtt.skipDummies fuel (stdDllGetnext rtt.rttClhead rth)
    else .ok rth

/-- `std_radical_getfirst` (`std_radical.c:137-152`). -/
def stdRadicalGetfirst (rtt : RtTable) : Exec Ptr :=
  rtt.skipDummies (rtt.rttClhead.length + 1) (Radix.stdDllGetfirst rtt.rttClhead)

/-- `std_radical_getnext` (`std_radical.c:155-170`). -/
def stdRadicalGetnext (rtt : RtTable) (rth : Ptr) : Exec Ptr :=
  rtt.skipDummies (rtt.rttClhead.length + 1) (stdDllGetnext rtt.rttClhead rth)

/-- The loop of `std_radical_nextversion` (`std_radical.c:181-186`). -/
def nextversionLoop (rtt : RtTable) : Nat → Ptr → Exec Nat
  | 0, _ => .error .diverges
  | fuel + 1, rth =>
    if (rtt.heads rth).isdummy then
      let rth := stdDllGetnext rtt.rttClhead rth
      if rth = NULL then .ok 0 else rtt.nextversionLoop fuel rth
    else .ok (rtt.heads rth).rthVersion

/-- `std_radical_nextversion` (`std_radical.c:173-189`). -/
def stdRadicalNextversion (rtt : RtTable) (dummy : Ptr) : Exec Nat := do
  assertThat (rtt.heads dummy).isdummy
  assertThat (rtt.islinked dummy)
  rtt.nextversionLoop (rtt.rttClhead.length + 1) dummy

end OpxCommonUtils.Radix.RtTable
