import OpxCommonUtils.Event.Handler
import OpxCommonUtils.Event.Proofs.Frames

/-!
# Frames and stale bytes

The handler is run twice: on the vector with whatever earlier frames left behind the frame, and on
a memory that is only the frame. Where both agree, for every vector, the frame was handled from its
own bytes. The lengths inside the frame decide that.
-/

namespace OpxCommonUtils.Event

open Io

variable {e : Endian} {σ : Type}

/-! ## More memory -/

/-- What one memory delivers the other delivers too. -/
def Extends {α : Type} (f g : Nat → Exec α) : Prop := ∀ ix a, f ix = .ok a → g ix = .ok a

theorem load_of_isPrefix {mem mem' : Mem} (h : mem <+: mem') {p n : Nat} {bs : List UInt8}
    (hload : mem.load p n = .ok bs) : mem'.load p n = .ok bs := by
  obtain ⟨tail, rfl⟩ := h
  rw [Mem.load] at hload
  by_cases hle : p + n ≤ mem.length
  · rw [if_pos hle] at hload
    rw [Mem.load_eq_ok _ (by rw [List.length_append]; omega), ← hload,
      List.drop_append_of_le_length (by omega),
      List.take_append_of_le_length (by rw [List.length_drop]; omega)]
  · rw [if_neg hle] at hload
    cases hload

theorem load32_of_isPrefix {mem mem' : Mem} (h : mem <+: mem') {p n : Nat}
    (hload : load32 e mem p = .ok n) : load32 e mem' p = .ok n := by
  obtain ⟨bs, hbs, hn⟩ := exec_bind_eq_ok.mp hload
  rw [load32, load_of_isPrefix h hbs]
  exact hn

theorem keyList_extends {mem mem' : Mem} (h : mem <+: mem') (p : Nat) :
    Extends (keyList e mem p) (keyList e mem' p) := by
  intro ix id hid
  rw [keyList] at hid ⊢
  by_cases hix : ix < STD_EVENT_KEY_MAX
  · rw [if_pos hix] at hid ⊢
    obtain ⟨n, hn, hok⟩ := exec_bind_eq_ok.mp hid
    rw [load32_of_isPrefix h hn]
    exact hok
  · rw [if_neg hix] at hid
    cases hid

theorem update_extends {list list' : Nat → Exec UInt32} (h : Extends list list') (create : Bool)
    (op : StdNode → StdNode) (k : Nat) : ∀ {ix : Nat} {cur : StdNode} {r : Option StdNode},
    cur.update list create op k ix = .ok r → cur.update list' create op k ix = .ok r := by
  induction k with
  | zero => intro ix cur r hrun; exact hrun
  | succ k ih =>
    intro ix cur r hrun
    rw [StdNode.update] at hrun ⊢
    obtain ⟨id, hid, hrun⟩ := exec_bind_eq_ok.mp hrun
    rw [h ix id hid, exec_bind_ok]
    cases hnext : cur.mNodes id with
    | some next =>
      simp only [hnext] at hrun ⊢
      obtain ⟨r', hr', hok⟩ := exec_bind_eq_ok.mp hrun
      rw [ih hr']
      exact hok
    | none =>
      simp only [hnext] at hrun ⊢
      cases create with
      | false => exact hrun
      | true =>
        simp only [if_true] at hrun ⊢
        obtain ⟨r', hr', hok⟩ := exec_bind_eq_ok.mp hrun
        rw [ih hr']
        exact hok

theorem publishLoop_extends {list list' : Nat → Exec UInt32} (h : Extends list list')
    (send : Send σ) (k : Nat) : ∀ {ix : Nat} {cur : StdNode} {a a' : Attempts σ},
    publishLoop send list k ix cur a = .ok a' → publishLoop send list' k ix cur a = .ok a' := by
  induction k with
  | zero => intro ix cur a a' hrun; exact hrun
  | succ k ih =>
    intro ix cur a a' hrun
    rw [publishLoop] at hrun ⊢
    obtain ⟨id, hid, hrun⟩ := exec_bind_eq_ok.mp hrun
    rw [h ix id hid, exec_bind_ok]
    cases hnext : cur.mNodes id with
    | none => simp only [hnext] at hrun ⊢; exact hrun
    | some next => simp only [hnext] at hrun ⊢; exact ih hrun

variable {fd : Int} {send : Send σ} {size : Nat} {tree : StdClientTree} {world : σ}

/-- A frame that is handled from its own bytes is handled so whatever stands behind it. -/
theorem handleFrame_of_isPrefix {mem mem' : Mem} (h : mem <+: mem') {eff : Effect σ}
    (hrun : handleFrame e fd send size mem tree world = .ok eff) :
    handleFrame e fd send size mem' tree world = .ok eff := by
  rw [handleFrame] at hrun ⊢
  by_cases hsize : size < sizeofServMsg
  · rw [if_pos hsize] at hrun ⊢
    exact hrun
  rw [if_neg hsize] at hrun ⊢
  obtain ⟨op, hop, hrun⟩ := exec_bind_eq_ok.mp hrun
  rw [load32_of_isPrefix h hop, exec_bind_ok]
  by_cases h0 : op = event_serv_msg_t_ADD_REG
  · rw [if_pos h0] at hrun ⊢
    obtain ⟨len, hlen, hrun⟩ := exec_bind_eq_ok.mp hrun
    obtain ⟨r, hr, hrun⟩ := exec_bind_eq_ok.mp hrun
    obtain ⟨r', hr', hr⟩ := exec_bind_eq_ok.mp hr
    rw [load32_of_isPrefix h hlen, exec_bind_ok, StdClientTree.regClient,
      update_extends (keyList_extends h 4) _ _ _ hr', exec_bind_ok, hr]
    exact hrun
  rw [if_neg h0] at hrun ⊢
  by_cases h1 : op = event_serv_msg_t_DEL_REG
  · rw [if_pos h1] at hrun ⊢
    obtain ⟨len, hlen, hrun⟩ := exec_bind_eq_ok.mp hrun
    obtain ⟨r, hr, hrun⟩ := exec_bind_eq_ok.mp hrun
    obtain ⟨r', hr', hr⟩ := exec_bind_eq_ok.mp hr
    rw [load32_of_isPrefix h hlen, exec_bind_ok, StdClientTree.deregClient,
      update_extends (keyList_extends h 4) _ _ _ hr', exec_bind_ok, hr]
    exact hrun
  rw [if_neg h1] at hrun ⊢
  by_cases h2 : op = event_serv_msg_t_PUBLISH
  · rw [if_pos h2] at hrun ⊢
    obtain ⟨dataLen, hdata, hrun⟩ := exec_bind_eq_ok.mp hrun
    rw [load32_of_isPrefix h hdata, exec_bind_ok]
    by_cases hfit : size < sizeofServMsg + sizeofEventMsg + dataLen
    · rw [if_pos hfit] at hrun ⊢
      exact hrun
    rw [if_neg hfit] at hrun ⊢
    obtain ⟨msg, hmsg, hrun⟩ := exec_bind_eq_ok.mp hrun
    obtain ⟨len, hlen, hrun⟩ := exec_bind_eq_ok.mp hrun
    obtain ⟨r, hr, hrun⟩ := exec_bind_eq_ok.mp hrun
    obtain ⟨a, ha, hr⟩ := exec_bind_eq_ok.mp hr
    rw [load_of_isPrefix h hmsg, exec_bind_ok, load32_of_isPrefix h hlen, exec_bind_ok,
      StdClientTree.publish, publishLoop_extends (keyList_extends h 4) _ _ ha, exec_bind_ok, hr]
    exact hrun
  rw [if_neg h2] at hrun ⊢
  by_cases h3 : op = event_serv_msg_t_BUFFER
  · rw [if_pos h3] at hrun ⊢
    obtain ⟨bs, hbs, hrun⟩ := exec_bind_eq_ok.mp hrun
    rw [load_of_isPrefix h hbs]
    exact hrun
  rw [if_neg h3] at hrun ⊢
  exact hrun

/-! ## What is read from a frame -/

/-- The word at an offset of a frame. -/
def word (e : Endian) (F : Mem) (off : Nat) : Nat := e.nat ((F.drop off).take 4)

/-- Every element that a walk in the tree comes to, from element `ix` of the key on with `k` to go,
is in the array and in the frame. -/
def Within (e : Endian) (F : Mem) : (k ix : Nat) → StdNode → Prop
  | 0, _, _ => True
  | k + 1, ix, cur => ix < STD_EVENT_KEY_MAX ∧ 8 + 4 * ix + 4 ≤ F.length ∧
      match cur.mNodes (UInt32.ofNat (word e F (8 + 4 * ix))) with
      | none => True
      | some next => Within e F k (ix + 1) next

variable {F : Mem}

theorem load32_eq_ok {off n : Nat} :
    load32 e F off = .ok n ↔ off + 4 ≤ F.length ∧ word e F off = n := by
  rw [load32, Mem.load]
  by_cases hle : off + 4 ≤ F.length
  · rw [if_pos hle, exec_bind_ok, exec_pure, Except.ok.injEq]
    exact ⟨fun h => ⟨hle, h⟩, fun h => h.2⟩
  · rw [if_neg hle]
    simp [hle]

theorem keyList_eq_ok {ix : Nat} {id : UInt32} : keyList e F 4 ix = .ok id ↔
    ix < STD_EVENT_KEY_MAX ∧ 8 + 4 * ix + 4 ≤ F.length ∧
      UInt32.ofNat (word e F (8 + 4 * ix)) = id := by
  rw [keyList]
  by_cases hix : ix < STD_EVENT_KEY_MAX
  · rw [if_pos hix, exec_bind_eq_ok]
    constructor
    · rintro ⟨n, hn, hid⟩
      obtain ⟨hle, rfl⟩ := load32_eq_ok.mp hn
      exact ⟨hix, hle, Except.ok.inj hid⟩
    · rintro ⟨-, hle, rfl⟩
      exact ⟨_, load32_eq_ok.mpr ⟨hle, rfl⟩, rfl⟩
  · rw [if_neg hix]
    exact ⟨nofun, fun h => absurd h.1 hix⟩

/-- A walk that makes the nodes it misses reads every element. -/
theorem update_create_iff (op : StdNode → StdNode) (k : Nat) : ∀ (ix : Nat) (cur : StdNode),
    (∃ r, cur.update (keyList e F 4) true op k ix = .ok r) ↔
      k = 0 ∨ (ix + k ≤ STD_EVENT_KEY_MAX ∧ 8 + 4 * (ix + k) ≤ F.length) := by
  induction k with
  | zero => intro ix cur; simp [StdNode.update]
  | succ k ih =>
    intro ix cur
    have hstep : (∃ r, cur.update (keyList e F 4) true op (k + 1) ix = .ok r) ↔
        ∃ id next, keyList e F 4 ix = .ok id ∧ next = (cur.mNodes id).getD StdNode.empty ∧
          ∃ r, next.update (keyList e F 4) true op k (ix + 1) = .ok r := by
      constructor
      · rintro ⟨r, hrun⟩
        rw [StdNode.update] at hrun
        obtain ⟨id, hid, hrun⟩ := exec_bind_eq_ok.mp hrun
        refine ⟨id, _, hid, rfl, ?_⟩
        cases hnext : cur.mNodes id with
        | some next =>
          simp only [hnext] at hrun
          obtain ⟨r', hr', -⟩ := exec_bind_eq_ok.mp hrun
          exact ⟨r', hr'⟩
        | none =>
          simp only [hnext, if_true] at hrun
          obtain ⟨r', hr', -⟩ := exec_bind_eq_ok.mp hrun
          exact ⟨r', hr'⟩
      · rintro ⟨id, next, hid, rfl, r, hr⟩
        rw [StdNode.update, hid, exec_bind_ok]
        cases hnext : cur.mNodes id with
        | some next =>
          rw [hnext, Option.getD_some] at hr
          exact ⟨_, by simp only [hr, exec_bind_ok]; rfl⟩
        | none =>
          rw [hnext, Option.getD_none] at hr
          exact ⟨_, by simp only [if_true, hr, exec_bind_ok]; rfl⟩
    rw [hstep]
    constructor
    · rintro ⟨id, next, hid, -, hr⟩
      obtain ⟨hix, hle, -⟩ := keyList_eq_ok.mp hid
      rcases (ih _ _).mp hr with rfl | hrest
      · exact .inr ⟨by omega, by omega⟩
      · exact .inr ⟨by omega, by omega⟩
    · rintro (h0 | hrest)
      · omega
      · exact ⟨_, _, keyList_eq_ok.mpr ⟨by omega, by omega, rfl⟩, rfl,
          (ih _ _).mpr (by omega)⟩

/-- A walk that makes no nodes reads elements until it misses one. -/
theorem update_iff (op : StdNode → StdNode) (k : Nat) : ∀ {ix : Nat} {cur : StdNode},
    (∃ r, cur.update (keyList e F 4) false op k ix = .ok r) ↔ Within e F k ix cur := by
  induction k with
  | zero => intro ix cur; simp [StdNode.update, Within]
  | succ k ih =>
    intro ix cur
    rw [Within]
    constructor
    · rintro ⟨r, hrun⟩
      rw [StdNode.update] at hrun
      obtain ⟨id, hid, hrun⟩ := exec_bind_eq_ok.mp hrun
      obtain ⟨hix, hle, rfl⟩ := keyList_eq_ok.mp hid
      refine ⟨hix, hle, ?_⟩
      cases hnext : cur.mNodes (UInt32.ofNat (word e F (8 + 4 * ix))) with
      | none => trivial
      | some next =>
        simp only [hnext] at hrun
        obtain ⟨r', hr', -⟩ := exec_bind_eq_ok.mp hrun
        exact ih.mp ⟨r', hr'⟩
    · rintro ⟨hix, hle, hwalk⟩
      rw [StdNode.update, keyList_eq_ok.mpr ⟨hix, hle, rfl⟩, exec_bind_ok]
      cases hnext : cur.mNodes (UInt32.ofNat (word e F (8 + 4 * ix))) with
      | none => exact ⟨none, rfl⟩
      | some next =>
        rw [hnext] at hwalk
        obtain ⟨r, hr⟩ := ih.mpr hwalk
        exact ⟨_, by simp only [hr, exec_bind_ok]; rfl⟩

variable (send) in
theorem publishLoop_iff (k : Nat) : ∀ {ix : Nat} {cur : StdNode} {a : Attempts σ},
    (∃ r, publishLoop send (keyList e F 4) k ix cur a = .ok r) ↔ Within e F k ix cur := by
  induction k with
  | zero => intro ix cur a; simp [publishLoop, Within]
  | succ k ih =>
    intro ix cur a
    rw [Within]
    constructor
    · rintro ⟨r, hrun⟩
      rw [publishLoop] at hrun
      obtain ⟨id, hid, hrun⟩ := exec_bind_eq_ok.mp hrun
      obtain ⟨hix, hle, rfl⟩ := keyList_eq_ok.mp hid
      refine ⟨hix, hle, ?_⟩
      cases hnext : cur.mNodes (UInt32.ofNat (word e F (8 + 4 * ix))) with
      | none => trivial
      | some next =>
        simp only [hnext] at hrun
        exact ih.mp ⟨r, hrun⟩
    · rintro ⟨hix, hle, hwalk⟩
      rw [publishLoop, keyList_eq_ok.mpr ⟨hix, hle, rfl⟩, exec_bind_ok]
      cases hnext : cur.mNodes (UInt32.ofNat (word e F (8 + 4 * ix))) with
      | none => exact ⟨a, rfl⟩
      | some next =>
        rw [hnext] at hwalk
        exact ih.mpr hwalk

variable (fd tree) in
theorem regClient_iff {len : Nat} : (∃ r, tree.regClient fd (keyList e F 4) len = .ok r) ↔
    len = 0 ∨ (len ≤ STD_EVENT_KEY_MAX ∧ 8 + 4 * len ≤ F.length) := by
  have hupdate := update_create_iff (·.insert fd) (e := e) (F := F) len 0 tree.head
  rw [Nat.zero_add] at hupdate
  rw [← hupdate]
  constructor
  · rintro ⟨r, hr⟩
    obtain ⟨r', hr', -⟩ := exec_bind_eq_ok.mp hr
    exact ⟨r', hr'⟩
  · rintro ⟨r, hr⟩
    rw [StdClientTree.regClient, hr, exec_bind_ok]
    cases r with
    | none => exact ⟨_, rfl⟩
    | some head => exact ⟨_, rfl⟩

variable (fd) in
theorem deregClient_iff {len : Nat} : (∃ r, tree.deregClient fd (keyList e F 4) len = .ok r) ↔
    Within e F len 0 tree.head := by
  rw [← update_iff (·.remove fd) len]
  constructor
  · rintro ⟨r, hr⟩
    obtain ⟨r', hr', -⟩ := exec_bind_eq_ok.mp hr
    exact ⟨r', hr'⟩
  · rintro ⟨r, hr⟩
    rw [StdClientTree.deregClient, hr, exec_bind_ok]
    cases r with
    | none => exact ⟨_, rfl⟩
    | some head => exact ⟨_, rfl⟩

variable (send world) in
theorem publish_iff {len : Nat} : (∃ r, tree.publish send world (keyList e F 4) len = .ok r) ↔
    Within e F len 0 tree.head := by
  rw [← publishLoop_iff send (a := ⟨∅, [], world⟩) len]
  constructor
  · rintro ⟨r, hr⟩
    obtain ⟨a, ha, -⟩ := exec_bind_eq_ok.mp hr
    exact ⟨a, ha⟩
  · rintro ⟨a, ha⟩
    exact ⟨(a.log, a.world), by rw [StdClientTree.publish, ha]; rfl⟩

/-- A frame of at most `2 ^ 31 - 1` bytes contains all that its handling reads: the words of its
structure, the elements of the key that are used, and the data of a message that is not so long
that it is refused in every vector. -/
structure SelfContained (e : Endian) (tree : StdClientTree) (F : Mem) : Prop where
  op : 4 ≤ F.length
  addReg : word e F 0 = event_serv_msg_t_ADD_REG →
    word e F 4 ≤ STD_EVENT_KEY_MAX ∧ 8 + 4 * word e F 4 ≤ F.length
  delReg : word e F 0 = event_serv_msg_t_DEL_REG →
    8 ≤ F.length ∧ Within e F (word e F 4) 0 tree.head
  publish : word e F 0 = event_serv_msg_t_PUBLISH → 76 ≤ F.length ∧
    (2 ^ 32 ≤ 76 + word e F 72 ∨
      76 + word e F 72 ≤ F.length ∧ Within e F (word e F 4) 0 tree.head)
  buffer : word e F 0 = event_serv_msg_t_BUFFER → 12 ≤ F.length

variable (fd send world) in
/-- Such a frame is handled in the same way at every size of the vector. -/
theorem SelfContained.handleFrame (h : SelfContained e tree F) : ∃ eff : Effect σ, ∀ size,
    F.length ≤ size → size < 2 ^ 32 → handleFrame e fd send size F tree world = .ok eff := by
  have hop : load32 e F 0 = .ok (word e F 0) := load32_eq_ok.mpr ⟨h.op, rfl⟩
  have hsize : ∀ size, F.length ≤ size → ¬ size < sizeofServMsg := by
    intro size hle
    have := h.op
    rw [sizeofServMsg]
    omega
  by_cases h0 : word e F 0 = event_serv_msg_t_ADD_REG
  · obtain ⟨hmax, hle⟩ := h.addReg h0
    have hlen : load32 e F 4 = .ok (word e F 4) := load32_eq_ok.mpr ⟨by omega, rfl⟩
    obtain ⟨⟨ret, tree'⟩, hr⟩ := (regClient_iff fd tree).mpr (.inr ⟨hmax, hle⟩)
    refine ⟨⟨ret, tree', none, none, world⟩, fun size hge _ => ?_⟩
    rw [Event.handleFrame, if_neg (hsize size hge), hop, exec_bind_ok, if_pos h0, hlen,
      exec_bind_ok, hr]
    rfl
  by_cases h1 : word e F 0 = event_serv_msg_t_DEL_REG
  · obtain ⟨hle, hwalk⟩ := h.delReg h1
    have hlen : load32 e F 4 = .ok (word e F 4) := load32_eq_ok.mpr ⟨hle, rfl⟩
    obtain ⟨⟨_, tree'⟩, hr⟩ := (deregClient_iff fd).mpr hwalk
    refine ⟨⟨true, tree', none, none, world⟩, fun size hge _ => ?_⟩
    rw [Event.handleFrame, if_neg (hsize size hge), hop, exec_bind_ok, if_neg h0, if_pos h1, hlen,
      exec_bind_ok, hr]
    rfl
  by_cases h2 : word e F 0 = event_serv_msg_t_PUBLISH
  · obtain ⟨hle, hdata⟩ := h.publish h2
    have hlen : load32 e F 4 = .ok (word e F 4) := load32_eq_ok.mpr ⟨by omega, rfl⟩
    have hdlen : load32 e F (4 + sizeofEventKey) = .ok (word e F 72) :=
      load32_eq_ok.mpr ⟨hle, rfl⟩
    have hsum : sizeofServMsg + sizeofEventMsg + word e F 72 = 76 + word e F 72 := rfl
    rcases hdata with hhuge | ⟨hfit, hwalk⟩
    · refine ⟨⟨false, tree, none, none, world⟩, fun size hge hlt => ?_⟩
      rw [Event.handleFrame, if_neg (hsize size hge), hop, exec_bind_ok, if_neg h0, if_neg h1,
        if_pos h2, hdlen, exec_bind_ok, hsum, if_pos (by omega)]
      rfl
    · have hmsg := Mem.load_eq_ok F (p := 4) (n := sizeofEventMsg + word e F 72)
        (by rw [sizeofEventMsg]; omega)
      obtain ⟨⟨log, world'⟩, hr⟩ := (publish_iff send world).mpr hwalk
      refine ⟨⟨true, tree, some ((F.drop 4).take (sizeofEventMsg + word e F 72), log), none, world'⟩,
        fun size hge _ => ?_⟩
      rw [Event.handleFrame, if_neg (hsize size hge), hop, exec_bind_ok, if_neg h0, if_neg h1,
        if_pos h2, hdlen, exec_bind_ok, hsum, if_neg (by omega), hmsg, exec_bind_ok, hlen,
        exec_bind_ok, hr]
      rfl
  by_cases h3 : word e F 0 = event_serv_msg_t_BUFFER
  · have hbs := Mem.load_eq_ok F (p := 4) (n := 8) (h.buffer h3)
    refine ⟨⟨true, tree, none, some (max (e.nat ((F.drop 4).take 8)) SOCKET_BUFFER_MIN_SIZE), world⟩,
      fun size hge _ => ?_⟩
    rw [Event.handleFrame, if_neg (hsize size hge), hop, exec_bind_ok, if_neg h0, if_neg h1,
      if_neg h2, if_pos h3, hbs]
    rfl
  refine ⟨⟨true, tree, none, none, world⟩, fun size hge _ => ?_⟩
  rw [Event.handleFrame, if_neg (hsize size hge), hop, exec_bind_ok, if_neg h0, if_neg h1,
    if_neg h2, if_neg h3]
  rfl

/-- A frame that is handled from its own bytes in the longest vector, with the effect it has in a
vector of its own length, is self-contained. -/
theorem selfContained_of_handleFrame {eff : Effect σ}
    (hmax : handleFrame e fd send (2 ^ 32 - 1) F tree world = .ok eff)
    (hown : handleFrame e fd send F.length F tree world = .ok eff) : SelfContained e tree F := by
  rw [handleFrame, if_neg (by decide)] at hmax
  obtain ⟨op, hop, hmax⟩ := exec_bind_eq_ok.mp hmax
  have hop' := hop
  obtain ⟨h4, rfl⟩ := load32_eq_ok.mp hop
  rw [handleFrame, if_neg (by rw [sizeofServMsg]; omega), hop', exec_bind_ok] at hown
  refine ⟨by omega, fun h0 => ?_, fun h1 => ?_, fun h2 => ?_, fun h3 => ?_⟩
  · rw [if_pos h0] at hmax
    obtain ⟨len, hlen, hmax⟩ := exec_bind_eq_ok.mp hmax
    obtain ⟨hle, rfl⟩ := load32_eq_ok.mp hlen
    obtain ⟨r, hr, -⟩ := exec_bind_eq_ok.mp hmax
    rcases (regClient_iff fd tree).mp ⟨r, hr⟩ with hzero | hrest
    · rw [hzero]
      exact ⟨by decide, by omega⟩
    · exact hrest
  · rw [if_neg (by rw [h1]; decide), if_pos h1] at hmax
    obtain ⟨len, hlen, hmax⟩ := exec_bind_eq_ok.mp hmax
    obtain ⟨hle, rfl⟩ := load32_eq_ok.mp hlen
    obtain ⟨r, hr, -⟩ := exec_bind_eq_ok.mp hmax
    exact ⟨hle, (deregClient_iff fd).mp ⟨r, hr⟩⟩
  · rw [if_neg (by rw [h2]; decide), if_neg (by rw [h2]; decide), if_pos h2] at hmax hown
    obtain ⟨dataLen, hdata, hmax⟩ := exec_bind_eq_ok.mp hmax
    rw [hdata, exec_bind_ok] at hown
    obtain ⟨hle, rfl⟩ := load32_eq_ok.mp hdata
    refine ⟨hle, ?_⟩
    have hsum : sizeofServMsg + sizeofEventMsg + word e F (4 + sizeofEventKey) =
        76 + word e F 72 := rfl
    rw [hsum] at hmax hown
    by_cases hhuge : 2 ^ 32 - 1 < 76 + word e F 72
    · exact .inl (by omega)
    rw [if_neg hhuge] at hmax
    obtain ⟨msg, -, hmax⟩ := exec_bind_eq_ok.mp hmax
    obtain ⟨len, hlen, hmax⟩ := exec_bind_eq_ok.mp hmax
    obtain ⟨-, rfl⟩ := load32_eq_ok.mp hlen
    obtain ⟨r, hr, hmax⟩ := exec_bind_eq_ok.mp hmax
    refine .inr ⟨?_, (publish_iff send world).mp ⟨r, hr⟩⟩
    -- a message beyond the frame is refused in the short vector only
    by_contra hlt
    rw [if_pos (by omega)] at hown
    rw [← Except.ok.inj hown] at hmax
    cases hmax
  · rw [if_neg (by rw [h3]; decide), if_neg (by rw [h3]; decide), if_neg (by rw [h3]; decide),
      if_pos h3] at hmax
    obtain ⟨bs, hbs, -⟩ := exec_bind_eq_ok.mp hmax
    by_contra hlt
    rw [Mem.load_error (by omega)] at hbs
    cases hbs

/-! ## Connections -/

/-- The vectors of a connection: the empty one, and what a frame leaves after which the connection
is kept. The registrations and the sends may have been any. -/
inductive Left (e : Endian) : Mem → Prop
  | new : Left e []
  | handled {buff buff' : Mem} {F rest junk : List UInt8} {as : List Answer} {p' : Peer} {σ : Type}
      {fd : Int} {send : Send σ} {tree : StdClientTree} {world : σ} {eff : Effect σ} :
      Left e buff → F.length < 2 ^ 32 → Benign STD_MAX_EINTR as →
      eventSomeData e junk fd send ⟨ipcHeader e F.length ++ F ++ rest, as⟩ (some buff) tree world =
        .ok (eff, some buff', p') → eff.ret = true → Left e buff'

/-- A frame is handled from its own bytes: its effect does not depend on what earlier frames left in
the vector, and it is the effect on a memory that holds the frame only. -/
def OwnBytes (e : Endian) (fd : Int) (send : Send σ) (tree : StdClientTree) (world : σ) (F : Mem) :
    Prop :=
  ∃ eff : Effect σ, ∀ (junk : List UInt8) (as : List Answer) (buff : Mem),
    Benign STD_MAX_EINTR as → Left e buff → ∃ buff' p',
      eventSomeData e junk fd send ⟨ipcHeader e F.length ++ F, as⟩ (some buff) tree world =
        .ok (eff, some buff', p') ∧
      (∀ p'', stdEventUtilEventRecv e junk ⟨ipcHeader e F.length ++ F, as⟩ buff true =
          .ok (.ok, buff', p'') →
        handleFrame e fd send buff'.length F tree world = .ok eff)

/-- The vector after a frame was received into it, `none` when the call fails. -/
def received (buff : Mem) (F : List UInt8) : Option Mem :=
  if F.length < 2 ^ 31 then some (overlay buff F)
  else if F.length = 2 ^ 32 - 1 then some (grown buff F.length)
  else none

variable {junk rest : List UInt8} {as : List Answer} {buff : Mem}

variable (fd send tree world junk rest as) in
/-- A frame that is received is handled in the vector it was received into. -/
theorem eventSomeData_received (hF : F.length < 2 ^ 32) (has : Benign STD_MAX_EINTR as) {b : Mem}
    (hb : received buff F = some b) : ∃ p',
    stdEventUtilEventRecv e junk ⟨ipcHeader e F.length ++ F ++ rest, as⟩ buff true =
        .ok (.ok, b, p') ∧
      eventSomeData e junk fd send ⟨ipcHeader e F.length ++ F ++ rest, as⟩ (some buff) tree world =
        (handleFrame e fd send b.length b tree world >>= fun eff => .ok (eff, some b, p')) := by
  have hrecv : ∃ p', stdEventUtilEventRecv e junk ⟨ipcHeader e F.length ++ F ++ rest, as⟩ buff true =
      .ok (.ok, b, p') := by
    rw [received] at hb
    by_cases hlt : F.length < 2 ^ 31
    · obtain ⟨p', hrun, -, -⟩ := recv_spec junk F rest (e := e)
        (p := ⟨ipcHeader e F.length ++ F ++ rest, as⟩) has hlt rfl buff true (.inr rfl)
      rw [if_pos hlt, Option.some_inj] at hb
      exact ⟨p', hb ▸ hrun⟩
    · rw [if_neg hlt] at hb
      obtain ⟨p', hrun, -, -⟩ := recv_huge junk (F ++ rest) (e := e) (n := F.length)
        (p := ⟨ipcHeader e F.length ++ F ++ rest, as⟩) has hF (by omega)
        (List.append_assoc ..) buff true (.inr rfl)
      by_cases hmax : F.length = 2 ^ 32 - 1
      · rw [if_pos hmax, Option.some_inj] at hb
        rw [if_pos hmax] at hrun
        exact ⟨p', hb ▸ hrun⟩
      · rw [if_neg hmax] at hb
        cases hb
  obtain ⟨p', hrecv⟩ := hrecv
  refine ⟨p', hrecv, ?_⟩
  rw [eventSomeData, hrecv]
  rfl

variable (fd send tree world junk rest buff) in
/-- A frame that is not received is refused. -/
theorem eventSomeData_refused (hF : F.length < 2 ^ 32) (has : Benign STD_MAX_EINTR as)
    (hb : received buff F = none) : ∃ buff' p',
    stdEventUtilEventRecv e junk ⟨ipcHeader e F.length ++ F ++ rest, as⟩ buff true =
        .ok (.fail, buff', p') ∧
      eventSomeData e junk fd send ⟨ipcHeader e F.length ++ F ++ rest, as⟩ (some buff) tree world =
        .ok (⟨false, tree, none, none, world⟩, some buff', p') := by
  rw [received] at hb
  by_cases hlt : F.length < 2 ^ 31
  · rw [if_pos hlt] at hb
    cases hb
  rw [if_neg hlt] at hb
  by_cases hmax : F.length = 2 ^ 32 - 1
  · rw [if_pos hmax] at hb
    cases hb
  obtain ⟨p', hrun, -, -⟩ := recv_huge junk (F ++ rest) (e := e) (n := F.length)
    (p := ⟨ipcHeader e F.length ++ F ++ rest, as⟩) has hF (by omega) (List.append_assoc ..) buff
    true (.inr rfl)
  rw [if_neg hmax] at hrun
  refine ⟨_, p', hrun, ?_⟩
  rw [eventSomeData, hrun]
  rfl

/-- The vector after one more frame. -/
theorem Left.next (h : Left e buff) (hF : F.length < 2 ^ 32) {b : Mem}
    (hb : received buff F = some b) {eff : Effect Unit}
    (hrun : handleFrame e 0 (fun w _ => (true, w)) b.length b ⟨StdNode.empty⟩ () = .ok eff)
    (hret : eff.ret = true) : Left e b := by
  obtain ⟨p', -, hsome⟩ := eventSomeData_received 0 (fun (w : Unit) _ => (true, w)) ⟨StdNode.empty⟩
    () [] [] [] (e := e)
    hF trivial hb
  rw [hrun, exec_bind_ok] at hsome
  have has : Benign STD_MAX_EINTR [] := trivial
  exact .handled h hF has hsome hret

theorem length_received_lt (hF : F.length < 2 ^ 32) (hbuff : buff.length < 2 ^ 32) {b : Mem}
    (hb : received buff F = some b) : b.length < 2 ^ 32 := by
  rw [received] at hb
  by_cases hlt : F.length < 2 ^ 31
  · rw [if_pos hlt, Option.some_inj] at hb
    rw [← hb, overlay, List.length_append, List.length_drop]
    omega
  rw [if_neg hlt] at hb
  by_cases hmax : F.length = 2 ^ 32 - 1
  · rw [if_pos hmax, Option.some_inj] at hb
    rw [← hb, length_grown]
    omega
  · rw [if_neg hmax] at hb
    cases hb

theorem Left.length_lt (h : Left e buff) : buff.length < 2 ^ 32 := by
  induction h with
  | new => simp
  | @handled buff buff' F rest junk as p' σ fd send tree world eff hleft hF has hrun hret ih =>
    cases hr : received buff F with
    | none =>
      obtain ⟨_, _, -, hspec⟩ := eventSomeData_refused fd send tree world junk rest _ (e := e) hF
        has hr
      rw [hspec] at hrun
      obtain ⟨rfl, -⟩ := Prod.mk.inj (Except.ok.inj hrun)
      cases hret
    | some b =>
      obtain ⟨_, -, hspec⟩ := eventSomeData_received fd send tree world junk rest _ (e := e) hF has
        hr
      rw [hspec] at hrun
      obtain ⟨eff', -, heq⟩ := exec_bind_eq_ok.mp hrun
      obtain ⟨-, heq⟩ := Prod.mk.inj (Except.ok.inj heq)
      obtain rfl := Option.some.inj (Prod.mk.inj heq).1
      exact length_received_lt hF ih hr

/-- A frame that keeps the connection, followed by one of the greatest size, leaves the longest
vector. -/
theorem left_longest (hF : F.length < 2 ^ 31) {eff : Effect Unit} (hret : eff.ret = true)
    (hrun : ∀ size, F.length ≤ size →
      handleFrame e 0 (fun w _ => (true, w)) size F ⟨StdNode.empty⟩ () = .ok eff) :
    Left e (grown F (2 ^ 32 - 1)) := by
  have hfirst : received [] F = some F := by
    rw [received, if_pos hF, overlay, List.drop_nil, List.append_nil]
  have hleft : Left e F := Left.new.next (by omega) hfirst (hrun _ le_rfl) hret
  have hzeros : ∀ n, n = 2 ^ 32 - 1 →
      received F (List.replicate n 0) = some (grown F (2 ^ 32 - 1)) := by
    intro n hn
    rw [received, List.length_replicate, if_neg (by omega), if_pos hn, hn]
  refine hleft.next (F := List.replicate (2 ^ 32 - 1) 0) (by rw [List.length_replicate]; omega)
    (hzeros _ rfl) (handleFrame_of_isPrefix (List.prefix_append ..) (hrun _ ?_)) hret
  rw [length_grown]
  omega

/-- A frame of an operation that does not exist. -/
theorem handleFrame_idle {size : Nat} (h4 : 4 ≤ size) :
    handleFrame e fd send size (e.bytes 4 7) tree world =
      .ok ⟨true, tree, none, none, world⟩ := by
  have hop : load32 e (e.bytes 4 7) 0 = .ok 7 :=
    load32_eq_ok.mpr ⟨by simp, by
      rw [word, List.drop_zero, List.take_of_length_le (by simp), Endian.nat_bytes (by decide)]⟩
  rw [handleFrame, if_neg (by rw [sizeofServMsg]; omega), hop]
  rfl

/-- A frame that sets the size of the socket's buffer. -/
theorem handleFrame_buffer {size : Nat} (h4 : 4 ≤ size) :
    handleFrame e fd send size (e.bytes 4 3 ++ e.bytes 8 0) tree world =
      .ok ⟨true, tree, none, some SOCKET_BUFFER_MIN_SIZE, world⟩ := by
  have hop : load32 e (e.bytes 4 3 ++ e.bytes 8 0) 0 = .ok 3 :=
    load32_eq_ok.mpr ⟨by simp, by
      rw [word, List.drop_zero, List.take_left' (by simp), Endian.nat_bytes (by decide)]⟩
  have hbs : Mem.load (e.bytes 4 3 ++ e.bytes 8 0) 4 8 = .ok (e.bytes 8 0) := by
    rw [Mem.load_eq_ok _ (by simp), List.drop_left' (by simp), List.take_of_length_le (by simp)]
  rw [handleFrame, if_neg (by rw [sizeofServMsg]; omega), hop, exec_bind_ok, if_neg (by decide),
    if_neg (by decide), if_neg (by decide), if_pos (by decide), hbs, exec_bind_ok,
    Endian.nat_bytes (by decide)]
  rfl

theorem left_idle (e : Endian) : Left e (grown (e.bytes 4 7) (2 ^ 32 - 1)) := by
  refine left_longest (by simp) rfl (fun size hge => handleFrame_idle ?_)
  rwa [Endian.length_bytes] at hge

theorem left_buffer (e : Endian) : Left e (grown (e.bytes 4 3 ++ e.bytes 8 0) (2 ^ 32 - 1)) :=
  by
  refine left_longest (by simp) rfl (fun size hge => handleFrame_buffer ?_)
  rw [List.length_append, Endian.length_bytes] at hge
  omega

/-- A frame that is received: its effects in the vectors have to agree. -/
theorem ownBytes_iff (hF : F.length < 2 ^ 32) {f : Mem → Mem}
    (hf : ∀ buff, received buff F = some (f buff)) : OwnBytes e fd send tree world F ↔
      ∃ eff, ∀ buff, Left e buff →
        handleFrame e fd send (f buff).length (f buff) tree world = .ok eff ∧
        handleFrame e fd send (f buff).length F tree world = .ok eff := by
  constructor
  · rintro ⟨eff, h⟩
    refine ⟨eff, fun buff hbuff => ?_⟩
    obtain ⟨buff', p', hrun, hown⟩ := h [] [] buff trivial hbuff
    obtain ⟨p'', hrecv, hspec⟩ := eventSomeData_received fd send tree world [] [] [] (e := e) hF
      trivial (hf buff)
    rw [List.append_nil] at hrecv hspec
    rw [hspec] at hrun
    obtain ⟨eff', heff, heq⟩ := exec_bind_eq_ok.mp hrun
    obtain ⟨rfl, heq'⟩ := Prod.mk.inj (Except.ok.inj heq)
    obtain rfl := Option.some.inj (Prod.mk.inj heq').1
    exact ⟨heff, hown p'' hrecv⟩
  · rintro ⟨eff, h⟩
    refine ⟨eff, fun junk as buff has hbuff => ?_⟩
    obtain ⟨p'', hrecv, hspec⟩ := eventSomeData_received fd send tree world junk [] _ (e := e) hF
      has (hf buff)
    rw [List.append_nil] at hrecv hspec
    obtain ⟨hmem, hown⟩ := h buff hbuff
    rw [hmem] at hspec
    exact ⟨f buff, p'', hspec, fun _ _ => hown⟩

/-- A frame that contains all it needs is handled from its own bytes. -/
theorem SelfContained.ownBytes (h : SelfContained e tree F) (hF : F.length < 2 ^ 31) :
    OwnBytes e fd send tree world F := by
  refine (ownBytes_iff (by omega) (fun buff => if_pos hF)).mpr ?_
  obtain ⟨eff, heff⟩ := h.handleFrame fd send world
  refine ⟨eff, fun buff hbuff => ?_⟩
  have hlen := length_received_lt (b := overlay buff F) (by omega) hbuff.length_lt (if_pos hF)
  have hown := heff _ (by rw [overlay, List.length_append]; omega) hlen
  exact ⟨handleFrame_of_isPrefix (List.prefix_append ..) hown, hown⟩

theorem OwnBytes.selfContained (h : OwnBytes e fd send tree world F) (hF : F.length < 2 ^ 31) :
    SelfContained e tree F := by
  obtain ⟨eff, heff⟩ := (ownBytes_iff (by omega) (fun buff => if_pos hF)).mp h
  have hmax := (heff _ (left_idle e)).2
  have hown := (heff _ .new).2
  have hlen : (overlay (grown (e.bytes 4 7) (2 ^ 32 - 1)) F).length = 2 ^ 32 - 1 := by
    rw [overlay, List.length_append, List.length_drop, length_grown, Endian.length_bytes]
    omega
  rw [hlen] at hmax
  rw [overlay, List.drop_nil, List.append_nil] at hown
  exact selfContained_of_handleFrame hmax hown

/-- The greatest size is received without reading anything. -/
theorem not_ownBytes_of_max (hF : F.length = 2 ^ 32 - 1) : ¬ OwnBytes e fd send tree world F := by
  intro h
  have hf : ∀ buff, received buff F = some (grown buff F.length) := by
    intro buff
    rw [received, if_neg (by omega), if_pos hF]
  obtain ⟨eff, heff⟩ := (ownBytes_iff (by omega) hf).mp h
  have hpfx : ∀ bs : List UInt8, bs <+: grown (grown bs (2 ^ 32 - 1)) F.length :=
    fun bs => (List.prefix_append ..).trans (List.prefix_append ..)
  have hsize : ∀ buff : Mem, 4 ≤ (grown buff F.length).length := by
    intro buff
    rw [length_grown]
    omega
  have hidle := (heff _ (left_idle e)).1
  have hbuffer := (heff _ (left_buffer e)).1
  rw [handleFrame_of_isPrefix (hpfx _) (handleFrame_idle (hsize _))] at hidle
  rw [handleFrame_of_isPrefix (hpfx _) (handleFrame_buffer (hsize _))] at hbuffer
  rw [← Except.ok.inj hidle] at hbuffer
  cases hbuffer

/-- A frame is handled from its own bytes, whatever earlier frames left in the vector, if and only
if it is refused for its size or it contains all that its operation reads. -/
theorem own_bytes_iff (e : Endian) (fd : Int) {σ : Type} (send : Send σ) (tree : StdClientTree)
    (world : σ) (F : Mem) (hF : F.length < 2 ^ 32) : OwnBytes e fd send tree world F ↔
      (F.length < 2 ^ 31 ∧ SelfContained e tree F) ∨
        (2 ^ 31 ≤ F.length ∧ F.length < 2 ^ 32 - 1) := by
  by_cases hlt : F.length < 2 ^ 31
  · constructor
    · exact fun h => .inl ⟨hlt, h.selfContained hlt⟩
    · rintro (⟨-, h⟩ | ⟨hge, -⟩)
      · exact h.ownBytes hlt
      · omega
  by_cases hmax : F.length = 2 ^ 32 - 1
  · refine ⟨fun h => absurd h (not_ownBytes_of_max hmax), ?_⟩
    omega
  · refine ⟨fun _ => .inr ⟨by omega, by omega⟩, fun _ => ?_⟩
    refine ⟨⟨false, tree, none, none, world⟩, fun junk as buff has _ => ?_⟩
    obtain ⟨buff', p', hrecv, hspec⟩ := eventSomeData_refused fd send tree world junk [] buff
      (e := e) hF has
      (by rw [received, if_neg hlt, if_neg hmax])
    rw [List.append_nil] at hrecv hspec
    refine ⟨buff', p', hspec, fun p'' hok => ?_⟩
    rw [hrecv] at hok
    cases hok

/-- A registration for the key of the one element 5. -/
def sampleReg : Mem := [0, 0, 0, 0, 1, 0, 0, 0, 5, 0, 0, 0]

/-- It needs no more than its twelve bytes. -/
theorem own_bytes_iff_sample :
    OwnBytes .little 9 (fun (w : Unit) _ => (true, w)) ⟨StdNode.empty⟩ () sampleReg ↔
      (sampleReg.length < 2 ^ 31 ∧ SelfContained .little ⟨StdNode.empty⟩ sampleReg) ∨
        (2 ^ 31 ≤ sampleReg.length ∧ sampleReg.length < 2 ^ 32 - 1) :=
  own_bytes_iff .little 9 _ ⟨StdNode.empty⟩ () sampleReg (by decide)

/-- A message for the key of the one element 5 that announces four bytes of data and has none. -/
def shortPublish : Mem :=
  [2, 0, 0, 0, 1, 0, 0, 0, 5, 0, 0, 0] ++ List.replicate 60 0 ++ [4, 0, 0, 0]

/-- The registrations with client 8 registered for that key. -/
def sampleTree : StdClientTree :=
  ⟨StdNode.empty.setNode 5 (StdNode.empty.insert 8)⟩

/-- A frame of eighty bytes that is kept in the vector. -/
def sampleStale : Mem := List.replicate 4 9 ++ List.replicate 76 7

theorem left_sampleStale : Left .little sampleStale := by
  have hrun : handleFrame .little 0 (fun (w : Unit) _ => (true, w)) 80 sampleStale
      ⟨StdNode.empty⟩ () = .ok ⟨true, ⟨StdNode.empty⟩, none, none, ()⟩ := rfl
  exact Left.new.next (F := sampleStale) (by decide) (by decide) hrun rfl

-- In a new connection the message is refused; after the frame of eighty bytes it is republished to
-- client 8 with the last four bytes of that frame.
example : (handleFrame .little 3 (fun (w : Unit) _ => (true, w)) 76 (overlay [] shortPublish)
    sampleTree ()).map (fun eff => (eff.ret, eff.published)) = .ok (false, none) := by
  decide +kernel

example : (handleFrame .little 3 (fun (w : Unit) _ => (true, w)) 80
    (overlay sampleStale shortPublish) sampleTree ()).map (fun eff => (eff.ret, eff.published)) =
      .ok (true, some (shortPublish.drop 4 ++ [7, 7, 7, 7], [(8, true)])) := by
  decide +kernel

/-- The message is not handled from its own bytes. -/
theorem short_publish_not_own : Left .little sampleStale ∧
    ¬ OwnBytes .little 3 (fun (w : Unit) _ => (true, w)) sampleTree () shortPublish := by
  refine ⟨left_sampleStale, fun h => ?_⟩
  obtain ⟨-, hhuge | ⟨hfit, -⟩⟩ := (h.selfContained (by decide)).publish (by decide)
  · exact absurd hhuge (by decide)
  · exact absurd hfit (by decide)

end OpxCommonUtils.Event
