import OsHomework.Lib.Logged
import OsHomework.Malloc3.Cover
import OsHomework.Malloc3.Spin

/-!
# `malloc_3`: the merges that are rehearsed, and those that are made

`CheckIfUnionIsPossible` and `SreallocUnion` once more, with a log of the merges; `Free` and `Srealloc` with a
log of those that are made.

* `Merge`, and with it `Merges.checkLoop`, `Merges.sreallocLoop`, `Merges.unionLoop` and what calls them;
  `Merges.srealloc_out`: **forgetting the log gives back the model**;
* `path base a i K`: growing from order `i` to order `K` into the right buddies;
* `ClimbsAll B a i`: from order `i` on, the block at `a` climbs to the whole arena;
* **`rehearsed_iff`**: what is rehearsed is what is done, unless the request is larger than any block.
-/

set_option autoImplicit false

namespace OsHomework.Malloc3

open Buddy

/-- `keep` swallows `gone`, and then has this order. -/
structure Merge where
  keep : ℕ
  gone : ℕ
  order : ℤ

namespace Merges

open Logged

/-- A merge is written down. -/
def note (e : Merge) : Logged Merge Unit := ⟨[e], .ret ()⟩

/-- The rehearsal notes the merges that it simulates on its copies. -/
def checkLoop (s : State) (addr size : ℕ) :
    ℕ → ℕ → ℕ → MallocMetadata → MallocMetadata → Logged Merge Bool
  | 0, _, _, _, _ => lift .fuel
  | n + 1, fakeAddr, fakeBuddy, fakeAddrMm, fakeBuddyMm =>
    if fakeBuddyMm.isFree ∧ fakeBuddyMm.order < 10 ∧ fakeAddrMm.size < size then
      if fakeBuddyMm.cookie ≠ s.cookie ∨ fakeAddrMm.cookie ≠ s.cookie then lift (.exit exitCode)
      else if fakeAddr < fakeBuddy then do
        let bytes ← lift (blockBytes (fakeAddrMm.order + 1))
        let fakeAddrMm := { fakeAddrMm with
          next := (hdr s.mem fakeBuddy).next
          order := fakeAddrMm.order + 1
          size := subSize bytes sizeofMetadata }
        note ⟨fakeAddr, fakeBuddy, fakeAddrMm.order⟩
        let fakeBuddy ← lift (buddyAddr addr fakeAddrMm.order)
        checkLoop s addr size n fakeAddr fakeBuddy fakeAddrMm (hdr s.mem fakeBuddy)
      else do
        let _ ← lift (blockBytes (fakeBuddyMm.order + 1))
        note ⟨fakeBuddy, fakeAddr, fakeBuddyMm.order + 1⟩
        let fakeAddr := fakeBuddy
        let fakeAddrMm := hdr s.mem fakeAddr
        let fakeBuddy ← lift (buddyAddr addr fakeAddrMm.order)
        checkLoop s addr size n fakeAddr fakeBuddy fakeAddrMm (hdr s.mem fakeBuddy)
    else pure (size ≤ fakeAddrMm.size)

def checkIfUnionIsPossible (fuel : ℕ) (s : State) (addr size : ℕ) : Logged Merge Bool := do
  let buddy ← lift (buddyAddr addr (hdr s.mem addr).order)
  checkLoop s addr size fuel addr buddy (hdr s.mem addr) (hdr s.mem buddy)

/-- A merge that is made is noted with the address and the order it leads to. -/
def mergeStep (s : State) (addr buddy : ℕ) : Logged Merge (State × ℕ × ℕ) := do
  let r ← lift (Malloc3.mergeStep s addr buddy)
  note ⟨r.2.1, if addr < buddy then buddy else addr, (hdr r.1.mem r.2.1).order⟩
  pure r

def unionLoop : ℕ → State → ℕ → ℕ → Logged Merge (State × ℕ)
  | 0, _, _, _ => lift .fuel
  | n + 1, s, addr, buddy =>
    if (hdr s.mem buddy).isFree ∧ (hdr s.mem buddy).order < 10 then do
      let r ← mergeStep s addr buddy
      unionLoop n r.1 r.2.1 r.2.2
    else pure (s, addr)

def unionIfPossible (fuel : ℕ) (s : State) (addr : ℕ) : Logged Merge State :=
  if (hdr s.mem addr).isMmap then pure s
  else do
    let buddy ← lift (buddyAddr addr (hdr s.mem addr).order)
    let r ← unionLoop fuel s addr buddy
    let s := { r.1 with mem := setIsFree r.1.mem r.2 true }
    lift (addToFreeOrder s r.2 (hdr s.mem r.2).order)

def free (fuel : ℕ) (s : State) (p : ℕ) : Logged Merge State :=
  if p ≠ 0 ∧ (hdr s.mem (headerOf p)).isMmap = false then unionIfPossible fuel s (headerOf p)
  else lift (Malloc3.free fuel s p)

def sreallocLoop (size : ℕ) : ℕ → State → ℕ → ℕ → Logged Merge (State × ℕ × ℕ)
  | 0, _, _, _ => lift .fuel
  | n + 1, s, addr, buddy =>
    if (hdr s.mem buddy).isFree ∧ (hdr s.mem buddy).order < 10 ∧ (hdr s.mem addr).size < size then do
      let r ← mergeStep s addr buddy
      sreallocLoop size n r.1 r.2.1 r.2.2
    else pure (s, addr, buddy)

def sreallocUnion (fuel : ℕ) (s : State) (addr size : ℕ) : Logged Merge (State × ℕ) := do
  let buddy ← lift (buddyAddr addr (hdr s.mem addr).order)
  let r ← sreallocLoop size fuel s addr buddy
  let s := { r.1 with mem := setIsFree r.1.mem r.2.1 false }
  let s ← lift (addToFreeOrder s r.2.2 (hdr s.mem r.2.1).order)
  pure (s, r.2.1)

def sreallocList (sys : Sys) (fuel : ℕ) (s : State) (oldp size : ℕ) : Logged Merge (State × ℕ) :=
  let start := headerOf oldp
  let oldSize := (hdr s.mem start).size
  if size ≤ oldSize then pure (s, oldp)
  else do
    let possible ← lift (Malloc3.checkIfUnionIsPossible fuel s start size)
    if possible then do
      let r ← sreallocUnion fuel s start size
      let addr := r.2 + sizeofMetadata
      pure ({ r.1 with mem := r.1.mem.copy addr oldp oldSize }, addr)
    else do
      let r ← lift (malloc sys fuel s size)
      if r.2 = 0 then pure (r.1, 0)
      else do
        let s ← free fuel { r.1 with mem := r.1.mem.copy r.2 oldp oldSize } oldp
        pure (s, r.2)

def srealloc (sys : Sys) (fuel : ℕ) (s : State) (oldp size : ℕ) : Logged Merge (State × ℕ) :=
  if size = 0 ∨ maxSizeToAllocate < size then pure (s, 0)
  else if oldp = 0 then lift (smalloc sys fuel s size)
  else sreallocList sys fuel s oldp size

/-! ## Forgetting the log -/

section Out

variable (s : State) (n addr buddy size : ℕ)

theorem note_bind {α : Type} (e : Merge) (f : Unit → Logged Merge α) :
    (note e >>= f) = ⟨e :: (f ()).log, (f ()).out⟩ := rfl

@[simp] theorem note_out (e : Merge) : (note e).out = .ret () := rfl

@[simp] theorem checkLoop_out (fakeAddr fakeBuddy : ℕ) (mm bm : MallocMetadata) :
    (checkLoop s addr size n fakeAddr fakeBuddy mm bm).out =
      Malloc3.checkLoop s addr size n fakeAddr fakeBuddy mm bm := by
  induction n generalizing fakeAddr fakeBuddy mm bm with
  | zero => rfl
  | succ n ih =>
    simp only [checkLoop, Malloc3.checkLoop, out_ite, out_bind, out_lift, note_out, Outcome.ret_bind, ih,
      out_pure]

@[simp] theorem checkIfUnionIsPossible_out :
    (checkIfUnionIsPossible n s addr size).out = Malloc3.checkIfUnionIsPossible n s addr size := by
  simp only [checkIfUnionIsPossible, out_bind, out_lift, checkLoop_out]
  rfl

@[simp] theorem mergeStep_out : (mergeStep s addr buddy).out = Malloc3.mergeStep s addr buddy := by
  simp only [mergeStep, out_bind, out_lift, note_out, Outcome.ret_bind, out_pure]
  cases Malloc3.mergeStep s addr buddy <;> rfl

@[simp] theorem unionLoop_out : (unionLoop n s addr buddy).out = Malloc3.unionLoop n s addr buddy := by
  induction n generalizing s addr buddy with
  | zero => rfl
  | succ n ih => simp only [unionLoop, Malloc3.unionLoop, out_ite, out_bind, mergeStep_out, ih, out_pure]

@[simp] theorem unionIfPossible_out :
    (unionIfPossible n s addr).out = Malloc3.unionIfPossible n s addr := by
  simp only [unionIfPossible, out_ite, out_bind, out_lift, unionLoop_out, out_pure]
  rfl

@[simp] theorem free_out (p : ℕ) : (free n s p).out = Malloc3.free n s p := by
  rw [free]
  split_ifs with h
  · rw [unionIfPossible_out, Malloc3.free, if_neg h.1]
    simp only [h.2, Bool.false_eq_true, if_false]
  · rfl

@[simp] theorem sreallocLoop_out :
    (sreallocLoop size n s addr buddy).out = Malloc3.sreallocLoop size n s addr buddy := by
  induction n generalizing s addr buddy with
  | zero => rfl
  | succ n ih =>
    simp only [sreallocLoop, Malloc3.sreallocLoop, out_ite, out_bind, mergeStep_out, ih, out_pure]

@[simp] theorem sreallocUnion_out :
    (sreallocUnion n s addr size).out = Malloc3.sreallocUnion n s addr size := by
  simp only [sreallocUnion, out_bind, out_lift, sreallocLoop_out, out_pure]
  rfl

@[simp] theorem sreallocList_out (sys : Sys) :
    (sreallocList sys n s addr size).out = Malloc3.sreallocList sys n s addr size := by
  simp only [sreallocList, Malloc3.sreallocList, out_ite, out_bind, out_lift, sreallocUnion_out, free_out,
    out_pure]

theorem srealloc_out (sys : Sys) : (srealloc sys n s addr size).out = Malloc3.srealloc sys n s addr size := by
  simp only [srealloc, Malloc3.srealloc, out_ite, out_lift, sreallocList_out, out_pure]

end Out

end Merges

/-! ## Growing into the right buddies -/

/-- The merges by which the block at `a` grows from order `i` to order `K`. -/
def path (base a i K : ℕ) : List Merge :=
  (List.range' i (K - i)).map fun l =>
    ⟨base + startSize * a, base + startSize * (a + 2 ^ l), ((l + 1 : ℕ) : ℤ)⟩

theorem path_self (base a i : ℕ) : path base a i i = [] := by
  rw [path, Nat.sub_self]
  rfl

theorem path_cons {base a i K : ℕ} (h : i < K) : path base a i K =
    ⟨base + startSize * a, base + startSize * (a + 2 ^ i), ((i + 1 : ℕ) : ℤ)⟩ :: path base a (i + 1) K := by
  rw [path, show K - i = K - (i + 1) + 1 by omega, List.range'_succ, List.map_cons, path]

section Path

variable {base : ℕ} {s : State} {B : Layout} {a k size : ℕ}

/-- **The rehearsal notes the path.** -/
theorem Merges.checkLoop_path {K : ℕ} (hA : Arena base) (h : Repr base s B none)
    (ha : B a = some ⟨k, false⟩) :
    ∀ {n i : ℕ} (mm : MallocMetadata), K < i + n → Grows B size a i K → mm.order = i →
      mm.size = payloadSize i → mm.cookie = s.cookie →
      Merges.checkLoop s (base + startSize * a) size n (base + startSize * a) (base + startSize * buddy a i)
        mm (hdr s.mem (base + startSize * buddy a i)) = ⟨path base a i K, .ret true⟩
  | 0, i, mm, hn, hgr, _, _, _ => by have := hgr.le; omega
  | n + 1, i, mm, hn, hgr, ho, hs, hck => by
    have hT := h.heap.tiles
    have hmax : K ≤ 10 := hgr.max
    rw [Merges.checkLoop, hs]
    rcases Nat.eq_or_lt_of_le hgr.le with rfl | hlt
    · have := hgr.fits
      rw [if_neg (by omega), decide_eq_true this, path_self]
      rfl
    · obtain ⟨hsize, j, hj, hz⟩ := hgr.steps i le_rfl hlt
      have hd : 2 ^ (i + 1) ∣ a := (pow_dvd_pow 2 hlt).trans hgr.aligned
      have hpos := Nat.two_pow_pos i
      have hHz := h.heap.hdrs hz
      have ih := Merges.checkLoop_path hA h ha { mm with
          next := (hdr s.mem (base + startSize * (a + 2 ^ i))).next
          order := ((i + 1 : ℕ) : ℤ)
          size := payloadSize (i + 1) } (show K < i + 1 + n by omega)
        ⟨hlt, hgr.max, hgr.fits, hgr.aligned, fun l h₁ h₂ => hgr.steps l (by omega) h₂⟩ rfl rfl hck
      have hfree : (slots base s.mem (a + 2 ^ i)).isFree = true := h.heap.marks hz (by simp)
      have hord : (slots base s.mem (a + 2 ^ i)).order = j := hHz.order
      rw [buddy_left hd, if_pos ⟨hfree, by rw [hdr_slot, hord]; exact_mod_cast hj, hsize⟩,
        if_neg (by rw [hdr_slot, hHz.cookie, hck]; simp), if_pos (slot_lt_iff.mpr (by omega)), ho,
        blockBytes_succ (by omega), Logged.lift_ret_bind]
      simp only [subSize_payload (show i + 1 ≤ 23 by omega)]
      rw [show ((i : ℤ) + 1) = ((i + 1 : ℕ) : ℤ) by omega, buddyAddr_slot hA (hT.lt ha) (by omega),
        Logged.lift_ret_bind, Merges.note_bind, ih, path_cons hlt]

theorem Merges.mergeStep_eq {addr buddy : ℕ} {r : State × ℕ × ℕ}
    (h : Malloc3.mergeStep s addr buddy = .ret r) :
    Merges.mergeStep s addr buddy =
      ⟨[⟨r.2.1, if addr < buddy then buddy else addr, (hdr r.1.mem r.2.1).order⟩], .ret r⟩ := by
  rw [Merges.mergeStep, h, Logged.lift_ret_bind, Merges.note_bind]
  rfl

/-- **So does `SreallocUnion`.** -/
theorem Merges.sreallocLoop_path {K : ℕ} (hA : Arena base) (h : Repr base s B none)
    (ha : B a = some ⟨k, false⟩) :
    ∀ {n i : ℕ} {t : State}, k ≤ i → K < i + n → Climbs B size a i K → GrowState base s t a i →
      (Merges.sreallocLoop size n t (base + startSize * a) (base + startSize * buddy a i)).log =
        path base a i K
  | 0, i, t, _, hn, hgr, _ => by have := hgr.le; omega
  | n + 1, i, t, hki, hn, hgr, hg => by
    have hT := h.heap.tiles
    rw [Merges.sreallocLoop]
    simp only [hdr_slot, hg.size]
    rcases Nat.eq_or_lt_of_le hgr.le with rfl | hlt
    · have := hgr.fits
      rw [if_neg (by omega), path_self]
      rfl
    · obtain ⟨hsize, j, hj, hz⟩ := hgr.steps i le_rfl hlt
      have hd : 2 ^ (i + 1) ∣ a := (pow_dvd_pow 2 hlt).trans hgr.aligned
      have hpos := Nat.two_pow_pos i
      obtain ⟨hHz, hfree⟩ := hg.hdrOk h hz (.inr le_rfl)
      have hmax := hgr.max
      obtain ⟨m₁, f₁, he₁, hg₁, -, -⟩ := hg.merge hA h ha (by omega)
        (buddyAddr_slot hA (hT.lt ha) (by omega)) hz
      have ih := Merges.sreallocLoop_path hA h ha (n := n) (show k ≤ i + 1 by omega)
        (show K < i + 1 + n by omega)
        ⟨hlt, hmax, hgr.fits, hgr.aligned, fun l h₁ h₂ => hgr.steps l (by omega) h₂⟩ hg₁
      rw [buddy_left hd, if_pos ⟨hfree, by rw [hHz.order]; exact_mod_cast hj, hsize⟩,
        Merges.mergeStep_eq he₁, path_cons hlt, ← ih, if_pos (slot_lt_iff.mpr (by omega)), hdr_slot, hg₁.order]
      rfl

theorem Merges.sreallocUnion_path {K n : ℕ} (hA : Arena base) (h : Repr base s B none)
    (ha : B a = some ⟨k, false⟩) (hgr : Grows B size a k K) (hn : maxOrder < n) :
    (Merges.sreallocUnion n s (base + startSize * a) size).log = path base a k K := by
  have hk : k ≤ maxOrder := h.heap.tiles.le_max ha
  have hK := hgr.max
  rw [Merges.sreallocUnion, h.buddyAddr_hdr hA ha, Logged.lift_ret_bind, Logged.log_bind_silent]
  · exact Merges.sreallocLoop_path hA h ha le_rfl (by omega) hgr.climbs (h.growState ha)
  · intro r
    exact Logged.log_bind_silent fun _ => rfl

end Path

/-! ## Beyond the greatest order -/

/-- From order `i` on, the block at `a` climbs to the whole arena. -/
structure ClimbsAll (B : Layout) (a i : ℕ) : Prop where
  aligned : 2 ^ 15 ∣ a
  steps : ∀ l, i ≤ l → l < 15 → ∃ j < 10, B (a + 2 ^ l) = some ⟨j, true⟩

section Beyond

variable {base : ℕ} {s : State} {B : Layout} {a k size : ℕ}

/-- **A rehearsal that succeeds for a larger request** has climbed to the whole arena. -/
theorem checkLoop_climbsAll (hA : Arena base) (h : Repr base s B none) (ha : B a = some ⟨k, false⟩)
    (hsize : payloadSize 14 < size) : ∀ {n i : ℕ} {mm : MallocMetadata}, k ≤ i → i ≤ 14 → 2 ^ i ∣ a →
      mm.order = i → mm.size = payloadSize i → mm.cookie = s.cookie →
      checkLoop s (base + startSize * a) size n (base + startSize * a) (base + startSize * buddy a i)
        mm (hdr s.mem (base + startSize * buddy a i)) = .ret true →
      ClimbsAll B a i ∧ ∃ n mm, mm.size = payloadSize 15 ∧ mm.cookie = s.cookie ∧
        checkLoop s (base + startSize * a) size n (base + startSize * a) (peer (base + startSize * a) 15) mm
          (hdr s.mem (peer (base + startSize * a) 15)) = .ret true
  | 0, i, mm, _, _, _, _, _, _, he => by simp [checkLoop] at he
  | n + 1, i, mm, hki, hi, hdvd, ho, hs, hck, he => by
    have hmono := payloadSize_mono hi
    rcases checkLoop_step hA h ha hki hi hdvd ho hs he with
      hfit | ⟨hd, -, ⟨j, hj10, -, hz⟩, mm', b, ho', hs', hck', hb, he⟩
    · omega
    rw [hck] at hck'
    obtain rfl | hlt : i = 14 ∨ i < 14 := by omega
    · rw [buddyAddr_peer (by norm_num)] at hb
      obtain rfl := Outcome.ret.inj hb
      refine ⟨⟨hd, fun l h₁ h₂ => ?_⟩, n, mm', hs', hck', he⟩
      obtain rfl : l = 14 := by omega
      exact ⟨j, hj10, hz⟩
    · rw [buddyAddr_slot hA (h.heap.tiles.lt ha) (by omega)] at hb
      obtain rfl := Outcome.ret.inj hb
      obtain ⟨hcl, htop⟩ := checkLoop_climbsAll hA h ha hsize (by omega) (by omega) hd ho' hs' hck' he
      refine ⟨⟨hcl.aligned, fun l h₁ h₂ => ?_⟩, htop⟩
      obtain rfl | hl : i = l ∨ i < l := by omega
      · exact ⟨j, hj10, hz⟩
      · exact hcl.steps l hl h₂

theorem ClimbsAll.passes {i l : ℕ} (hcl : ClimbsAll B a i) (hA : Arena base) (h : Repr base s B none)
    (ha : B a = some ⟨k, false⟩) (h₁ : i ≤ l) (h₂ : l < 15) :
    Passes s (peer (base + startSize * a) l) ∧ base + startSize * a < peer (base + startSize * a) l := by
  have hT := h.heap.tiles
  obtain ⟨j, hj, hz⟩ := hcl.steps l h₁ h₂
  have hH := h.heap.hdrs hz
  rw [peer_slot hA (hT.lt ha) h₂, buddy_left ((pow_dvd_pow 2 (by omega)).trans hcl.aligned)]
  refine ⟨⟨h.heap.marks hz (by simp), ?_, hH.cookie⟩, slot_lt_iff.mpr (by have := Nat.two_pow_pos l; omega)⟩
  rw [hdr_slot, hH.order]
  exact_mod_cast hj

/-- **Along the climb the rehearsal comes to the top**; the induction is on the levels. -/
theorem checkLoop_of_climbsAll (hA : Arena base) (h : Repr base s B none) (ha : B a = some ⟨k, false⟩)
    (hsize : payloadSize 14 < size) : ∀ {d i : ℕ} {mm : MallocMetadata}, i + d = 15 → ClimbsAll B a i →
      mm.order = i → mm.size = payloadSize i → mm.cookie = s.cookie →
      ∃ mm', mm'.size = payloadSize 15 ∧ mm'.cookie = s.cookie ∧ ∀ n,
        checkLoop s (base + startSize * a) size (n + d) (base + startSize * a) (peer (base + startSize * a) i)
            mm (hdr s.mem (peer (base + startSize * a) i)) =
          checkLoop s (base + startSize * a) size n (base + startSize * a) (peer (base + startSize * a) 15)
            mm' (hdr s.mem (peer (base + startSize * a) 15))
  | 0, i, mm, hd, _, _, hs, hck => by
    obtain rfl : i = 15 := by omega
    exact ⟨mm, hs, hck, fun _ => rfl⟩
  | d + 1, i, mm, hd, hcl, ho, hs, hck => by
    obtain ⟨hp, hlt⟩ := hcl.passes hA h ha le_rfl (by omega)
    have hmono := payloadSize_mono (show i ≤ 14 by omega)
    obtain ⟨mm', hs', hck', he⟩ := checkLoop_of_climbsAll hA h ha hsize (show i + 1 + d = 15 by omega)
      ⟨hcl.aligned, fun l h₁ h₂ => hcl.steps l (by omega) h₂⟩
      (show (grownCopy s mm (base + startSize * a) i).order = _ from rfl) rfl hck
    refine ⟨mm', hs', hck', fun n => ?_⟩
    rw [← add_assoc, checkLoop_up (by omega) hp hlt ho (by omega) hck]
    exact he n

/-- The block at `a` is followed by what followed the last buddy below the top. -/
def TopNext (base : ℕ) (B : Layout) (a : ℕ) (m : Mem) : Prop :=
  ∃ j, B (a + 2 ^ 14) = some ⟨j, true⟩ ∧ (slots base m a).next = nextAddr base (a + 2 ^ 14) j

/-- **`SreallocUnion` climbs as well**; the induction is on the levels. -/
theorem sreallocLoop_climbsAll (hA : Arena base) (h : Repr base s B none) (ha : B a = some ⟨k, false⟩)
    (hsize : payloadSize 14 < size) : ∀ {d i : ℕ} {t : State}, i + d = 15 → ClimbsAll B a i →
      GrowState base s t a i → (i = 15 → TopNext base B a t.mem) →
      ∃ m f, GrowState base s { t with mem := m, freed := f } a 15 ∧ Outside base B t.mem m ∧
        TopNext base B a m ∧ ∀ n,
          sreallocLoop size (n + d) t (base + startSize * a) (peer (base + startSize * a) i) =
            sreallocLoop size n { t with mem := m, freed := f } (base + startSize * a)
              (peer (base + startSize * a) 15) ∧
          (Merges.sreallocLoop size n { t with mem := m, freed := f } (base + startSize * a)
              (peer (base + startSize * a) 15)).log ⊆
            (Merges.sreallocLoop size (n + d) t (base + startSize * a)
              (peer (base + startSize * a) i)).log
  | 0, i, t, hd, _, hg, htop => by
    obtain rfl : i = 15 := by omega
    exact ⟨t.mem, t.freed, hg, fun _ _ => rfl, htop rfl, fun _ => ⟨rfl, fun _ he => he⟩⟩
  | d + 1, i, t, hd, hcl, hg, _ => by
    have hT := h.heap.tiles
    have hmono := payloadSize_mono (show i ≤ 14 by omega)
    obtain ⟨j, hj, hz⟩ := hcl.steps i le_rfl (by omega)
    have hdvd : 2 ^ (i + 1) ∣ a := (pow_dvd_pow 2 (by omega)).trans hcl.aligned
    obtain ⟨hHz, hfree⟩ := hg.hdrOk h hz (.inr le_rfl)
    obtain ⟨m₁, f₁, he₁, hg₁, ho₁, hn₁⟩ := hg.merge hA h ha (by omega) (buddyAddr_peer (by omega)) hz
    obtain ⟨m, f, hg', ho, htop, he⟩ := sreallocLoop_climbsAll hA h ha hsize (show i + 1 + d = 15 by omega)
      ⟨hcl.aligned, fun l h₁ h₂ => hcl.steps l (by omega) h₂⟩ hg₁ fun hi => by
        obtain rfl : i = 14 := by omega
        exact ⟨j, hz, hn₁⟩
    refine ⟨m, f, hg', fun x hx => (ho x hx).trans (ho₁ x hx), htop, fun n => ?_⟩
    rw [peer_slot hA (hT.lt ha) (by omega), buddy_left hdvd, ← add_assoc, sreallocLoop,
      Merges.sreallocLoop]
    simp only [hdr_slot, hg.size]
    rw [if_pos ⟨hfree, by rw [hHz.order]; exact_mod_cast hj, by omega⟩, he₁, Outcome.ret_bind,
      if_pos ⟨hfree, by rw [hHz.order]; exact_mod_cast hj, by omega⟩, Merges.mergeStep_eq he₁]
    exact ⟨(he n).1, fun e hmem => Logged.mem_log_bind.mpr (.inr ⟨_, rfl, (he n).2 hmem⟩)⟩

/-- A block of the whole arena has no free list. -/
theorem sreallocUnion_ub_of_climbsAll (hA : Arena base) (h : Repr base s B none)
    (ha : B a = some ⟨k, false⟩) (hcl : ClimbsAll B a k) (h₁ : payloadSize 14 < size)
    (h₂ : size ≤ payloadSize 15) {fuel : ℕ} (hfuel : 15 < fuel) :
    sreallocUnion fuel s (base + startSize * a) size = .ub := by
  have hk : k ≤ 10 := h.heap.tiles.le_max ha
  obtain ⟨m, f, hg, -, -, he⟩ := sreallocLoop_climbsAll hA h ha h₁ (show k + (15 - k) = 15 by omega) hcl
    (h.growState ha) (by omega)
  have hord : (slots base (setIsFree m (base + startSize * a) false) a).order = (15 : ℕ) :=
    (order_setIsFree ..).trans hg.order
  obtain ⟨n, rfl⟩ : ∃ n, fuel = n + 1 + (15 - k) := ⟨fuel - 1 - (15 - k), by omega⟩
  rw [sreallocUnion, h.buddyAddr_hdr_peer ha, Outcome.ret_bind, (he _).1, sreallocLoop, hdr_slot, hg.size,
    if_neg (by omega), Outcome.ret_bind]
  simp only [hdr_slot, hord]
  rw [addToFreeOrder, freedIdx, if_neg (by unfold maxOrder; omega)]
  rfl

end Beyond

/-! ## What is rehearsed is done -/

/-- **`SreallocUnion` does what was rehearsed**: it makes the same merges and returns the block at `A`, which
then holds the request. -/
def AsRehearsed (s : State) (A size : ℕ) : Prop :=
  ∃ s', Returns (fun n => sreallocUnion n s A size) (s', A) ∧ size ≤ (hdr s'.mem A).size ∧
    ∃ N, ∀ n, N ≤ n →
      (Merges.sreallocUnion n s A size).log = (Merges.checkIfUnionIsPossible n s A size).log

section Rehearsed

variable {base : ℕ} {s : State} {B : Layout} {a k size : ℕ}

theorem Repr.checkLoop_of_check {b : Bool} (hA : Arena base) (h : Repr base s B none)
    (ha : B a = some ⟨k, false⟩)
    (hr : Returns (fun n => checkIfUnionIsPossible n s (base + startSize * a) size) b) :
    ∃ n, checkLoop s (base + startSize * a) size n (base + startSize * a) (base + startSize * buddy a k)
      (slots base s.mem a) (hdr s.mem (base + startSize * buddy a k)) = .ret b := by
  obtain ⟨N, hN⟩ := hr
  have he := hN N le_rfl
  beta_reduce at he
  rw [checkIfUnionIsPossible, h.buddyAddr_hdr hA ha, Outcome.ret_bind] at he
  exact ⟨N, he⟩

theorem asRehearsed_of_grows {K : ℕ} (hA : Arena base) (h : Repr base s B none)
    (ha : B a = some ⟨k, false⟩) (hgr : Grows B size a k K) : AsRehearsed s (base + startSize * a) size := by
  have hT := h.heap.tiles
  have hH := h.heap.hdrs ha
  have hk : k ≤ 10 := hT.le_max ha
  have hK : K ≤ 10 := hgr.max
  obtain ⟨m, f, he, hg, -⟩ := sreallocUnion_spec hA h ha hgr (Nat.lt_succ_self maxOrder)
  refine ⟨_, settles_sreallocUnion.returns he, ?_, 11, fun n hn => ?_⟩
  · have hsize : (slots base (setIsFree m (base + startSize * a) false) a).size = payloadSize K :=
      (size_setIsFree ..).trans hg.size
    show size ≤ (slots base (setIsFree m (base + startSize * a) false) a).size
    rw [hsize]
    exact hgr.fits
  · rw [Merges.checkIfUnionIsPossible, h.buddyAddr_hdr hA ha, Logged.lift_ret_bind, hdr_slot,
      Merges.checkLoop_path hA h ha _ (by omega) hgr hH.order hH.size hH.cookie,
      Merges.sreallocUnion_path hA h ha hgr (show maxOrder < n from hn)]

end Rehearsed

/-- **What is rehearsed is done exactly if the request fits a block of order 10**, whatever the payloads hold.
The second part asks that the bytes across the boundary do not decide: the request fits the arena, or the
header that the whole arena would take for its buddy is not trusted. -/
theorem rehearsed_iff {s : State} {l : List ℕ} {A size : ℕ} (h : RIList s l) (hA : A ∈ l)
    (hused : (hdr s.mem A).isFree = false)
    (hcheck : Returns (fun n => checkIfUnionIsPossible n s A size) true) :
    (size ≤ payloadSize maxOrder → AsRehearsed s A size) ∧
    (size ≤ payloadSize 15 ∨ ¬ Passes s (peer s.head 15) → AsRehearsed s A size →
      size ≤ payloadSize maxOrder) := by
  obtain ⟨a, rfl⟩ := h.exists_slot hA
  have ha : layoutOf s l a = some ⟨_, false⟩ := layoutOf_eq_some.mpr ⟨hA, by rw [← hused]; rfl⟩
  generalize (slots s.head s.mem a).order.toNat = k at ha
  have hR := h.repr
  have hk : k ≤ maxOrder := h.tiles.le_max ha
  have hH := hR.heap.hdrs ha
  constructor
  · intro hsize
    obtain ⟨K, hgr⟩ := hR.grows_of_check h.arena ha (.inl hsize) hcheck
    exact asRehearsed_of_grows h.arena hR ha hgr
  · rintro hc ⟨s', ⟨N, hN⟩, -⟩
    have hret := hN (max N 16) (le_max_left _ _)
    beta_reduce at hret
    by_contra hbig
    by_cases hsize : size ≤ payloadSize 14
    · obtain ⟨K, hcl⟩ := hR.climbs_of_check h.arena ha (.inl hsize) hcheck
      have hK : maxOrder < K := by
        by_contra hK
        exact hbig (hcl.fits.trans (payloadSize_mono (not_lt.mp hK)))
      rw [sreallocUnion_ub h.arena hR ha hcl hK (by omega)] at hret
      cases hret
    · obtain ⟨n, he⟩ := hR.checkLoop_of_check h.arena ha hcheck
      obtain ⟨hcl, n', mm, hs', hck', he'⟩ := checkLoop_climbsAll h.arena hR ha (not_le.mp hsize) le_rfl
        (hk.trans (by decide)) (h.tiles.aligned ha) hH.order hH.size hH.cookie he
      by_cases hall : size ≤ payloadSize 15
      · rw [sreallocUnion_ub_of_climbsAll h.arena hR ha hcl (not_le.mp hsize) hall (by omega)] at hret
        cases hret
      · -- then it was the header across the boundary that was trusted
        have hzero : a = 0 := Nat.eq_zero_of_dvd_of_lt hcl.aligned (h.tiles.lt ha)
        have hnot := hc.resolve_left hall
        rw [hzero, mul_zero, add_zero] at he'
        cases n' with
        | zero => simp [checkLoop] at he'
        | succ n' =>
          rw [checkLoop, hs'] at he'
          split_ifs at he' with hgo hbad
          · exact hnot ⟨hgo.1, hgo.2.1, not_not.mp (not_or.mp hbad).1⟩
          · exact hnot ⟨hgo.1, hgo.2.1, not_not.mp (not_or.mp hbad).1⟩
          · simp only [Outcome.ret.injEq, decide_eq_true_eq] at he'
            exact hall he'

/-! ## Examples -/

/-- The rehearsal for the only block in use. -/
theorem rehearsed_iff_one_block : ∃ w l,
    Run Step (start (fun _ => 0) 0 4198400) [.smalloc ⟨true, none⟩ 65000] w ∧ 8388648 ∈ w.live ∧
    RIList w.st l ∧ AsRehearsed w.st 8388608 100000 := by
  obtain ⟨w, l, hrun, hlive, -, hri, -, hA, hused, hcheck⟩ := exists_oneBlock_listed
  exact ⟨w, l, hrun, hlive, hri,
    (rehearsed_iff hri hA hused hcheck).1 (by unfold payloadSize startSize maxOrder sizeofMetadata; norm_num)⟩

/-- The layout after allocations of order 10, 9 and 9. -/
def bigAndHalves : Layout := fun x =>
  if x = 0 then some ⟨10, false⟩ else if x = 1024 then some ⟨9, false⟩
  else if x = 1536 then some ⟨9, false⟩ else fresh maxOrder arenaUnits x

theorem splitTo_bigAndHalves : splitTo (splitTo (splitTo (fresh maxOrder arenaUnits) 0 10 0) 1024 9 1)
    1536 9 0 = bigAndHalves := by
  funext x
  simp only [splitTo, mark_apply, split_apply, bigAndHalves, Nat.add_zero,
    show 1024 + 2 ^ 9 = 1536 by norm_num]
  split_ifs <;> first | rfl | omega

/-- A block of order 10, and a split one of which the first half is released. -/
theorem exists_bigAndHalves : ∃ w, Run Step (start (fun _ => 0) 0 4198400)
      [.smalloc ⟨true, none⟩ 131000, .smalloc ⟨true, none⟩ 65000, .smalloc ⟨true, none⟩ 65000,
        .sfree 8519720] w ∧
    Inv 8388608 w.st (mark bigAndHalves 1024 9 true) [] ∧ w.live = [8585256, 8388648] := by
  have h131 : LeastOrder 131000 10 :=
    leastOrder_succ (by unfold payloadSize startSize sizeofMetadata; norm_num)
      (by unfold payloadSize startSize sizeofMetadata; norm_num)
  have ht₁ := takes_fresh (k := 10) (by decide)
  have ht₂ : Takes (splitTo (fresh maxOrder arenaUnits) 0 10 0) 9 10 1024 := by
    have key : ∀ b i, splitTo (fresh maxOrder arenaUnits) 0 10 0 b = some ⟨i, true⟩ →
        1024 ≤ b ∧ i = maxOrder := by
      intro b i hb
      simp only [splitTo, mark_apply] at hb
      split_ifs at hb with h₁
      · simp at hb
      · obtain ⟨q, -, rfl, -⟩ := fresh_eq hb
        exact ⟨by omega, fresh_order hb⟩
    refine ⟨?_, by norm_num, fun b hb => (key b _ hb).1, fun i b h₁ h₂ hb => ?_⟩
    · simp only [splitTo, mark_apply]
      exact fresh_block (i := 1) (by norm_num)
    · have := (key b i hb).2
      unfold maxOrder at this
      omega
  have ht₃ : Takes (splitTo (splitTo (fresh maxOrder arenaUnits) 0 10 0) 1024 9 1) 9 9 1536 := by
    refine ⟨splitTo_piece (i := 9) le_rfl (by norm_num), le_rfl, fun b hb => ?_,
      fun i b h₁ h₂ => by omega⟩
    simp only [splitTo, mark_apply, split_apply] at hb
    split_ifs at hb with h₁ h₂ h₃
    all_goals first | omega | skip
    · simp at hb
    · simp at hb
    · exact absurd (fresh_order hb) (by decide)
  obtain ⟨w₁, h₁, hi₁, -, hl₁⟩ := step_smalloc (w := start (fun _ => 0) 0 4198400) ⟨true, none⟩
    (inv_initArena (fun _ => 0) boots_example true) (by norm_num) (by unfold maxSize; norm_num) h131 ht₁
  obtain ⟨w₂, h₂, hi₂, -, hl₂⟩ := step_smalloc (w := w₁) ⟨true, none⟩ hi₁ (by norm_num)
    (by unfold maxSize; norm_num) leastOrder_65000 ht₂
  obtain ⟨w₃, h₃, hi₃, -, hl₃⟩ := step_smalloc (w := w₂) ⟨true, none⟩ hi₂ (by norm_num)
    (by unfold maxSize; norm_num) leastOrder_65000 ht₃
  have hi₃' : Inv (arenaBase 4198400) w₃.st bigAndHalves [] := by
    rw [← splitTo_bigAndHalves]
    exact hi₃
  rw [arenaBase_example] at hi₃' hl₁ hl₂ hl₃
  have hb : buddy 1024 9 = 1536 := rfl
  have h1536 : bigAndHalves 1536 = some ⟨9, false⟩ := rfl
  have hrel : release bigAndHalves 1 1024 9 = mark bigAndHalves 1024 9 true := by
    rw [release, hb, h1536, if_neg (by simp)]
  have hq : Quiet bigAndHalves 1 1024 9 := by
    refine ⟨fun i hi => ?_, fun hi => ?_⟩ <;> rw [hb, h1536] at hi <;> simp at hi
  have hp : 8388608 + startSize * 1024 + sizeofMetadata = 8519720 := by
    unfold startSize sizeofMetadata; norm_num
  have hr : 8388608 + startSize * 1536 + sizeofMetadata = 8585256 := by
    unfold startSize sizeofMetadata; norm_num
  have hl : w₃.live = [8585256, 8519720, 8388648] := by
    rw [hl₃, hl₂, hl₁, hp, hr, firstBlock]
    rfl
  obtain ⟨w₄, h₄, hi₄, -, hl₄⟩ := step_sfree hi₃' (show bigAndHalves 1024 = some ⟨9, false⟩ from rfl) hq
    (by rw [hl, hp]; simp)
  rw [show maxOrder - 9 = 1 from rfl, hrel] at hi₄
  rw [hp] at h₄ hl₄
  refine ⟨w₄, .cons h₁ (.cons h₂ (.cons h₃ (.cons h₄ (.nil _)))), hi₄, ?_⟩
  rw [hl₄, hl]
  rfl

/-- **A rehearsal that cannot be carried out**: the block of order 10 is to grow to 200000 bytes. The rehearsal
takes it to order 11, for which `SreallocUnion` has no free list. -/
theorem rehearsed_not_done : ∃ w l, Run Step (start (fun _ => 0) 0 4198400)
      [.smalloc ⟨true, none⟩ 131000, .smalloc ⟨true, none⟩ 65000, .smalloc ⟨true, none⟩ 65000,
        .sfree 8519720] w ∧
    RIList w.st l ∧ 8388608 ∈ l ∧ 8388648 ∈ w.live ∧ (hdr w.st.mem 8388608).size < 200000 ∧
    Returns (fun n => checkIfUnionIsPossible n w.st 8388608 200000) true ∧
    (∀ n, 14 < n → sreallocUnion n w.st 8388608 200000 = .ub) ∧ ¬ AsRehearsed w.st 8388608 200000 := by
  obtain ⟨w, hrun, hi, hl⟩ := exists_bigAndHalves
  obtain ⟨l, hri, hmem⟩ := hi.repr.riList hi.arena hi.head
  have h0 : mark bigAndHalves 1024 9 true 0 = some ⟨10, false⟩ := rfl
  have hA : 8388608 ∈ l := (hmem _).mpr ⟨0, _, h0, rfl⟩
  have hsize : (hdr w.st.mem 8388608).size = payloadSize 10 := (hi.repr.heap.hdrs h0).size
  have hcl : Climbs (mark bigAndHalves 1024 9 true) 200000 0 10 11 := by
    refine ⟨by norm_num, by norm_num, ?_, dvd_zero _, fun j h₁ h₂ => ?_⟩
    · unfold payloadSize startSize sizeofMetadata; norm_num
    · obtain rfl : j = 10 := by omega
      exact ⟨by unfold payloadSize startSize sizeofMetadata; norm_num, 9, by norm_num, rfl⟩
  have hub : ∀ n, 14 < n → sreallocUnion n w.st (8388608 + startSize * 0) 200000 = .ub := fun n hn =>
    sreallocUnion_ub hi.arena hi.repr h0 hcl (by decide) hn
  have hcheck := hi.check_of_climbs h0 hcl
  rw [mul_zero, add_zero] at hub hcheck
  refine ⟨w, l, hrun, hri, hA, by rw [hl]; simp, ?_, hcheck, hub, ?_⟩
  · rw [hsize]
    unfold payloadSize startSize sizeofMetadata
    norm_num
  · rintro ⟨s', ⟨N, hN⟩, -⟩
    have he := hN (max N 15) (le_max_left _ _)
    beta_reduce at he
    rw [hub _ (by omega)] at he
    cases he

end OsHomework.Malloc3
