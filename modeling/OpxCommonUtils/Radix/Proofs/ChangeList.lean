import OpxCommonUtils.Radix.Proofs.ChangeFrame
import OpxCommonUtils.Radix.Proofs.ChangeWalk

/-!
# Every change is acknowledged once per marker

`ChangesOk` is the invariant of the change list: the heads stand in the order of their versions,
and behind a marker stand those whose present version it has not acknowledged. Moving one marker
keeps it for all (`ChangesOk.place`), whichever of the five places the marker ends up in.
-/

namespace OpxCommonUtils.Radix

open RtTable

/-- The heads on the change list, in its order. -/
def changes (marker : Ptr → Bool) (rtt : RtTable) : List Ptr :=
  rtt.rttClhead.filter fun x => !marker x

/-- The change of a head: the head with its version. -/
def change (rtt : RtTable) (x : Ptr) : Ptr × Nat := (x, (rtt.heads x).rthVersion)

/-- The invariant of the change list, for a memory where `marker` tells markers from heads. -/
structure ChangesOk (marker : Ptr → Bool) (s : ChangeState) : Prop where
  nodup : s.rtt.rttClhead.Nodup
  null : NULL ∉ s.rtt.rttClhead
  dummy : ∀ m ∈ s.rtt.rttClhead, marker m = true → (s.rtt.heads m).isdummy = true
  plain : ∀ x, marker x = false → (s.rtt.heads x).isdummy = false
  incl : ∀ x, marker x = false → ((s.rtt.heads x).incl = true ↔ x ∈ s.rtt.rttClhead)
  sorted : (changes marker s.rtt).Pairwise fun x y =>
    (s.rtt.heads x).rthVersion < (s.rtt.heads y).rthVersion
  le : ∀ x ∈ changes marker s.rtt, (s.rtt.heads x).rthVersion ≤ s.rtt.rttVersion
  acked_nodup : ∀ m, (s.acked m).Nodup
  acked_le : ∀ m, ∀ c ∈ s.acked m, c.2 ≤ s.rtt.rttVersion
  pending : ∀ m ∈ s.rtt.rttClhead, marker m = true → ∀ x ∈ changes marker s.rtt,
    (x ∈ after m s.rtt.rttClhead ↔ change s.rtt x ∉ s.acked m)

section
variable {marker : Ptr → Bool} {s : ChangeState}

theorem mem_changes {rtt : RtTable} {x : Ptr} :
    x ∈ changes marker rtt ↔ x ∈ rtt.rttClhead ∧ marker x = false := by
  simp [changes]

theorem ne_marker {x m : Ptr} (hx : marker x = false) (hm : marker m = true) : x ≠ m := by
  rintro rfl
  rw [hx] at hm
  cases hm

/-- The heads of a piece of the list are the items that are not markers. -/
theorem ChangesOk.live_eq (h : ChangesOk marker s) {l : List Ptr} (hl : l ⊆ s.rtt.rttClhead) :
    live s.rtt.heads l = l.filter fun x => !marker x := by
  refine List.filter_congr fun x hx => ?_
  cases hm : marker x with
  | true => rw [h.dummy x (hl hx) hm]
  | false => rw [h.plain x hm]

/-! ## What does not touch the list -/

/-- The tree operations keep the invariant. -/
theorem ChangesOk.same (h : ChangesOk marker s) {rtt : RtTable} {freed : List Ptr}
    (hsame : SameChanges s.rtt rtt freed) :
    ChangesOk marker { s with rtt := rtt } := by
  have hver : ∀ x, (rtt.heads x).rthVersion = (s.rtt.heads x).rthVersion :=
    fun x => (hsame.heads x).1
  have hdummy : ∀ x, (rtt.heads x).isdummy = (s.rtt.heads x).isdummy := fun x => by
    rw [RtHead.isdummy, (hsame.heads x).2, RtHead.isdummy]
  have hincl : ∀ x, (rtt.heads x).incl = (s.rtt.heads x).incl := fun x => by
    rw [RtHead.incl, (hsame.heads x).2, RtHead.incl]
  have hchanges : changes marker rtt = changes marker s.rtt := by
    rw [changes, hsame.clhead, changes]
  have hchange : ∀ x, change rtt x = change s.rtt x := fun x => by rw [change, hver, change]
  constructor
  case nodup => simpa only [hsame.clhead] using h.nodup
  case null => simpa only [hsame.clhead] using h.null
  case dummy => simpa only [hsame.clhead, hdummy] using h.dummy
  case plain => simpa only [hdummy] using h.plain
  case incl => simpa only [hsame.clhead, hincl] using h.incl
  case sorted => simpa only [hchanges, hver] using h.sorted
  case le => simpa only [hchanges, hver, hsame.version] using h.le
  case acked_nodup => exact h.acked_nodup
  case acked_le => simpa only [hsame.version] using h.acked_le
  case pending => simpa only [hsame.clhead, hchanges, hchange] using h.pending

/-! ## What comes and goes -/

/-- When only `p` is overwritten, and comes or goes, the flags of all other items stay right. -/
theorem ChangesOk.flags (h : ChangesOk marker s) {rtt : RtTable} {p : Ptr}
    (hheads : ∀ x, x ≠ p → rtt.heads x = s.rtt.heads x)
    (hmem : ∀ x, x ≠ p → (x ∈ rtt.rttClhead ↔ x ∈ s.rtt.rttClhead))
    (hmarker : marker p = true → p ∈ rtt.rttClhead → (rtt.heads p).isdummy = true)
    (hhead : marker p = false → (rtt.heads p).isdummy = false ∧
      ((rtt.heads p).incl = true ↔ p ∈ rtt.rttClhead)) :
    (∀ m ∈ rtt.rttClhead, marker m = true → (rtt.heads m).isdummy = true) ∧
    (∀ x, marker x = false → (rtt.heads x).isdummy = false) ∧
    (∀ x, marker x = false → ((rtt.heads x).incl = true ↔ x ∈ rtt.rttClhead)) := by
  refine ⟨fun m hm hmark => ?_, fun x hx => ?_, fun x hx => ?_⟩
  · by_cases heq : m = p
    · rw [heq] at hm hmark ⊢
      exact hmarker hmark hm
    · rw [hheads m heq]
      exact h.dummy m ((hmem m heq).mp hm) hmark
  · by_cases heq : x = p
    · rw [heq] at hx ⊢
      exact (hhead hx).1
    · rw [hheads x heq]
      exact h.plain x hx
  · by_cases heq : x = p
    · rw [heq] at hx ⊢
      exact (hhead hx).2
    · rw [hheads x heq, hmem x heq]
      exact h.incl x hx

/-- An item leaves the list, or is overwritten while it is not on it. -/
theorem ChangesOk.unlink (h : ChangesOk marker s) {rtt : RtTable} {p : Ptr}
    (hlist : rtt.rttClhead = s.rtt.rttClhead.erase p)
    (hversion : rtt.rttVersion = s.rtt.rttVersion)
    (hheads : ∀ x, x ≠ p → rtt.heads x = s.rtt.heads x)
    (hhead : marker p = false →
      (rtt.heads p).isdummy = false ∧ (rtt.heads p).incl = false) :
    ChangesOk marker { s with rtt := rtt } := by
  have hmem : ∀ x, x ∈ rtt.rttClhead ↔ x ≠ p ∧ x ∈ s.rtt.rttClhead := fun x => by
    rw [hlist, h.nodup.mem_erase_iff]
  have hout : p ∉ rtt.rttClhead := fun hp => ((hmem p).mp hp).1 rfl
  have hsub : (changes marker rtt).Sublist (changes marker s.rtt) := by
    rw [changes, changes, hlist]
    exact (List.erase_sublist).filter _
  have hin : ∀ x ∈ changes marker rtt, rtt.heads x = s.rtt.heads x := fun x hx =>
    hheads x ((hmem x).mp (mem_changes.mp hx).1).1
  obtain ⟨hdummy, hplain, hincl⟩ := h.flags hheads (fun x hx => by rw [hmem]; simp [hx])
    (fun _ hp => absurd hp hout) fun hp => ⟨(hhead hp).1, by rw [(hhead hp).2]; simp [hout]⟩
  constructor
  case nodup => simpa only [hlist] using h.nodup.erase p
  case null => exact fun hnull => h.null ((hmem _).mp hnull).2
  case dummy => exact hdummy
  case plain => exact hplain
  case incl => exact hincl
  case sorted =>
    refine (h.sorted.sublist hsub).imp_of_mem fun hx hy hlt => ?_
    dsimp only
    rw [hin _ hx, hin _ hy]
    exact hlt
  case le =>
    intro x hx
    dsimp only
    rw [hin x hx, hversion]
    exact h.le x (hsub.subset hx)
  case acked_nodup => exact h.acked_nodup
  case acked_le => simpa only [hversion] using h.acked_le
  case pending =>
    intro m hm hmarker x hx
    obtain ⟨hmp, hm⟩ := (hmem m).mp hm
    have hxp : x ≠ p := ((hmem x).mp (mem_changes.mp hx).1).1
    have hback : after m rtt.rttClhead = (after m s.rtt.rttClhead).filter (· != p) := by
      rw [hlist, h.nodup.erase_eq_filter]
      exact after_filter (by simpa using hmp) _
    dsimp only
    rw [hback, List.mem_filter, change, hin x hx]
    simpa [hxp, change] using h.pending m hm hmarker x (hsub.subset hx)

/-- A head goes to the back of the list with a new version. -/
theorem ChangesOk.push (h : ChangesOk marker s) {rtt : RtTable} {rth : Ptr}
    (hrth : marker rth = false) (h0 : rth ≠ NULL) (hout : rth ∉ s.rtt.rttClhead)
    (hlist : rtt.rttClhead = s.rtt.rttClhead ++ [rth])
    (hversion : rtt.rttVersion = s.rtt.rttVersion + 1)
    (hheads : ∀ x, x ≠ rth → rtt.heads x = s.rtt.heads x)
    (hnew : (rtt.heads rth).rthVersion = rtt.rttVersion)
    (hdummy : (rtt.heads rth).isdummy = false) (hincl : (rtt.heads rth).incl = true) :
    ChangesOk marker { s with rtt := rtt } := by
  have hmem : ∀ x, x ∈ rtt.rttClhead ↔ x ∈ s.rtt.rttClhead ∨ x = rth := fun x => by
    rw [hlist, List.mem_append, List.mem_singleton]
  have hchanges : changes marker rtt = changes marker s.rtt ++ [rth] := by
    rw [changes, changes, hlist, List.filter_append, List.filter_cons_of_pos (by simp [hrth]),
      List.filter_nil]
  have hin : ∀ x ∈ s.rtt.rttClhead, rtt.heads x = s.rtt.heads x := fun x hx =>
    hheads x fun heq => hout (heq ▸ hx)
  have hold : ∀ x ∈ changes marker s.rtt, rtt.heads x = s.rtt.heads x := fun x hx =>
    hin x (mem_changes.mp hx).1
  obtain ⟨hdummy', hplain, hincl'⟩ := h.flags hheads (fun x hx => by rw [hmem]; simp [hx])
    (fun hp => by rw [hrth] at hp; cases hp)
    fun _ => ⟨hdummy, by rw [hincl, hmem]; simp⟩
  constructor
  case nodup =>
    simpa only [hlist] using h.nodup.append (List.nodup_singleton rth) (by simpa using hout)
  case null => exact fun hnull => ((hmem _).mp hnull).elim h.null fun heq => h0 heq.symm
  case dummy => exact hdummy'
  case plain => exact hplain
  case incl => exact hincl'
  case sorted =>
    dsimp only
    rw [hchanges]
    refine List.pairwise_append.mpr ⟨?_, List.pairwise_singleton _ _, fun x hx y hy => ?_⟩
    · refine h.sorted.imp_of_mem fun hx hy hlt => ?_
      rw [hold _ hx, hold _ hy]
      exact hlt
    · have hle := h.le x hx
      rw [List.mem_singleton.mp hy, hold x hx, hnew, hversion]
      omega
  case le =>
    intro x hx
    dsimp only at hx ⊢
    rw [hchanges, List.mem_append, List.mem_singleton] at hx
    rcases hx with hx | rfl
    · have hle := h.le x hx
      rw [hold x hx, hversion]
      omega
    · exact hnew.le
  case acked_nodup => exact h.acked_nodup
  case acked_le =>
    intro m c hc
    have hle := h.acked_le m c hc
    dsimp only
    omega
  case pending =>
    intro m hm hmarker x hx
    have hm' : m ∈ s.rtt.rttClhead :=
      ((hmem m).mp hm).resolve_right (ne_marker hrth hmarker).symm
    dsimp only at hx ⊢
    rw [hlist, after_append_of_mem hm', List.mem_append, List.mem_singleton]
    rw [hchanges, List.mem_append, List.mem_singleton] at hx
    rcases hx with hx | rfl
    · have hne : x ≠ rth := fun heq => hout (heq ▸ (mem_changes.mp hx).1)
      rw [change, hold x hx]
      simpa [hne, change] using h.pending m hm' hmarker x hx
    · refine iff_of_true (.inr rfl) fun hacked => ?_
      have hle := h.acked_le m _ hacked
      dsimp only [change] at hle
      omega

/-- A marker is placed between `pre` and `post`, with acknowledgements `a` that leave out exactly
the changes behind it. -/
theorem ChangesOk.place (h : ChangesOk marker s) {rtt : RtTable} {m : Ptr} (pre post : List Ptr)
    {a : List (Ptr × Nat)} (hm : marker m = true) (h0 : m ≠ NULL)
    (hsplit : s.rtt.rttClhead = pre ++ post) (hout : m ∉ s.rtt.rttClhead)
    (hlist : rtt.rttClhead = pre ++ m :: post)
    (hversion : rtt.rttVersion = s.rtt.rttVersion)
    (hheads : ∀ x, x ≠ m → rtt.heads x = s.rtt.heads x)
    (hdummy : (rtt.heads m).isdummy = true) (hnodup : a.Nodup)
    (hle : ∀ c ∈ a, c.2 ≤ s.rtt.rttVersion)
    (hpending : ∀ x ∈ changes marker s.rtt, (x ∈ post ↔ change s.rtt x ∉ a)) :
    ChangesOk marker { s.setAcked m a with rtt := rtt } := by
  have hmem : ∀ x, x ∈ rtt.rttClhead ↔ x ∈ s.rtt.rttClhead ∨ x = m := fun x => by
    rw [hlist, hsplit]
    simp only [List.mem_append, List.mem_cons]
    tauto
  have hchanges : changes marker rtt = changes marker s.rtt := by
    rw [changes, changes, hlist, hsplit, List.filter_append, List.filter_append,
      List.filter_cons_of_neg (by simp [hm])]
  have hin : ∀ x ∈ changes marker s.rtt, rtt.heads x = s.rtt.heads x := fun x hx =>
    hheads x (ne_marker (mem_changes.mp hx).2 hm)
  obtain ⟨hdummy', hplain, hincl⟩ := h.flags hheads (fun x hx => by rw [hmem]; simp [hx])
    (fun _ _ => hdummy) (fun hp => by rw [hm] at hp; cases hp)
  constructor
  case nodup =>
    dsimp only
    rw [hlist, List.nodup_middle]
    exact List.nodup_cons.mpr ⟨hsplit ▸ hout, hsplit ▸ h.nodup⟩
  case null => exact fun hnull => ((hmem _).mp hnull).elim h.null fun heq => h0 heq.symm
  case dummy => exact hdummy'
  case plain => exact hplain
  case incl => exact hincl
  case sorted =>
    dsimp only
    rw [hchanges]
    refine h.sorted.imp_of_mem fun hx hy hlt => ?_
    rw [hin _ hx, hin _ hy]
    exact hlt
  case le =>
    dsimp only
    rw [hchanges, hversion]
    intro x hx
    rw [hin x hx]
    exact h.le x hx
  case acked_nodup =>
    intro m'
    by_cases heq : m' = m
    · simpa [ChangeState.setAcked, heq] using hnodup
    · simpa [ChangeState.setAcked, heq] using h.acked_nodup m'
  case acked_le =>
    intro m' c hc
    dsimp only
    rw [hversion]
    by_cases heq : m' = m
    · simp only [ChangeState.setAcked, heq, if_true] at hc
      exact hle c hc
    · simp only [ChangeState.setAcked, heq, if_false] at hc
      exact h.acked_le m' c hc
  case pending =>
    intro m' hm' hmarker x hx
    dsimp only at hm' hx ⊢
    rw [hchanges] at hx
    rw [change, hin x hx, hlist]
    by_cases heq : m' = m
    · have hpre : m ∉ pre := fun hp => hout (hsplit ▸ List.mem_append_left _ hp)
      rw [heq, after_append_cons _ hpre]
      simpa [ChangeState.setAcked, change] using hpending x hx
    · have hm'' := ((hmem m').mp hm').resolve_right heq
      have hplain' : (!marker x) = true := by simp [(mem_changes.mp hx).2]
      have hfilter := filter_after_insert (p := fun y => !marker y) (Ne.symm heq) (by simp [hm])
        pre post
      have hiff : x ∈ after m' (pre ++ m :: post) ↔ x ∈ after m' (pre ++ post) := by
        have := congrArg (x ∈ ·) hfilter
        simpa [List.mem_filter, (mem_changes.mp hx).2] using this
      rw [hiff, ← hsplit]
      simpa [ChangeState.setAcked, heq, change] using h.pending m' hm'' hmarker x hx

end

end OpxCommonUtils.Radix
