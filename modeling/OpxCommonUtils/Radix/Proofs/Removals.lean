import OpxCommonUtils.Radix.Proofs.MarkedLookup
import OpxCommonUtils.Radix.Proofs.VersionSelection

/-!
# What becomes of a removed head

Inside a walk a head is removed in two steps: `std_radix_remove` marks its node, and the walk takes
a marked node out when it leaves it. `Removes` says of two tables what has been removed on the way
from one to the other and what was handed to `rtt_rmfree`; it composes (`Removes.trans`), and both
steps are cases of it.
-/

namespace OpxCommonUtils.Radix

open Tree Trie LinkTree RtTable

/-- The head `rth` is stored for `K`, at a node that is marked or not. -/
def Has (rtt : RtTable) (K : List Bool) (rth : Ptr) (marked : Bool) : Prop :=
  ∃ n, StoredAt rtt K n ∧ n.rtnRth = rth ∧ n.marked = marked

/-- Between the tables the heads `gone` were removed, and the heads `freed` were taken out of the
tree and handed to `rtt_rmfree`, those that had been removed before included. -/
structure Removes (rtt rtt' : RtTable) (gone freed : List Ptr) : Prop where
  live : ∀ K rth, Has rtt' K rth false ↔ Has rtt K rth false ∧ rth ∉ gone
  marked : ∀ rth, ((∃ K, Has rtt' K rth true) ∨ rth ∈ freed) ↔
    (∃ K, Has rtt K rth true) ∨ rth ∈ gone
  stored : ∀ K rth m, Has rtt' K rth m → ∃ m', Has rtt K rth m'
  nodup : freed.Nodup
  out : ∀ rth ∈ freed, ∀ K m, ¬ Has rtt' K rth m
  list : rtt'.rmfreed = rtt.rmfreed ++ freed
  rmfree : rtt'.rttRmfree = rtt.rttRmfree
  version : ∀ rth, (rtt'.heads rth).rthVersion = (rtt.heads rth).rthVersion

namespace Removes

variable {a b c : RtTable} {gone gone' freed freed' : List Ptr}

/-- Nothing that is read of the heads has changed. -/
theorem of_has (hhas : ∀ K rth m, Has b K rth m ↔ Has a K rth m) (hlist : b.rmfreed = a.rmfreed)
    (hrmfree : b.rttRmfree = a.rttRmfree) (hheads : b.heads = a.heads) : Removes a b [] [] where
  live K rth := by simp [hhas]
  marked rth := by simp [hhas]
  stored K rth m h := ⟨m, (hhas K rth m).mp h⟩
  nodup := List.nodup_nil
  out := by simp
  list := by rw [hlist, List.append_nil]
  rmfree := hrmfree
  version rth := by rw [hheads]

theorem refl (a : RtTable) : Removes a a [] [] := of_has (fun _ _ _ => Iff.rfl) rfl rfl rfl

/-- What is removed later is still stored in between. -/
theorem trans (hab : Removes a b gone freed) (hbc : Removes b c gone' freed')
    (hgone : ∀ rth ∈ gone', ∃ K m, Has b K rth m) :
    Removes a c (gone ++ gone') (freed ++ freed') where
  live K rth := by
    rw [hbc.live, hab.live, List.mem_append, not_or, and_assoc]
  marked rth := by
    have h₁ := hbc.marked rth
    have h₂ := hab.marked rth
    rw [List.mem_append, List.mem_append]
    tauto
  stored K rth m h := by
    obtain ⟨m', h'⟩ := hbc.stored K rth m h
    exact hab.stored K rth m' h'
  nodup := by
    refine List.nodup_append.mpr ⟨hab.nodup, hbc.nodup, ?_⟩
    rintro rth hrth _ hrth' rfl
    rcases (hbc.marked rth).mp (.inr hrth') with ⟨K, hK⟩ | hin
    · exact hab.out rth hrth K true hK
    · obtain ⟨K, m, hK⟩ := hgone rth hin
      exact hab.out rth hrth K m hK
  out rth hrth K m h := by
    rcases List.mem_append.mp hrth with hrth | hrth
    · obtain ⟨m', h'⟩ := hbc.stored K rth m h
      exact hab.out rth hrth K m' h'
    · exact hbc.out rth hrth K m h
  list := by rw [hbc.list, hab.list, List.append_assoc]
  rmfree := hbc.rmfree.trans hab.rmfree
  version rth := (hbc.version rth).trans (hab.version rth)

end Removes

/-! ## What is handed to `rtt_rmfree` -/

namespace RtTable

variable {rtt : RtTable}

end RtTable

/-! ## The heads of a tree -/

namespace Shape

variable {rtt rtt' : RtTable} {t : Tree RtVal} {c : List (Frame RtVal)} {p : Ptr} {v : RtVal}
  {l r : Tree RtVal}

end Shape

end OpxCommonUtils.Radix
