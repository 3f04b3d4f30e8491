import OsHomework.Lib.Logged
import OsHomework.Malloc3.Restore
import OsHomework.Malloc3.Spin

/-!
# `malloc_3`: broken cookies

`Free` once more, with a log of the state after each of its writes.

* `write`, and with it `Writes.free` and what it calls; `Writes.free_out`: **forgetting the log gives back
  the model**;
* `LiveBlock s a`: a block that a client may hold; `Detected s p`: `sfree(p)` ends the process, and has changed
  nothing by then;
* **`detected_iff`**: a broken cookie is noticed in time only if the block is in the arena and is about to be
  merged.
-/

set_option autoImplicit false

namespace OsHomework.Malloc3

open Buddy

namespace Writes

open Logged

/-- A write leads to the state `s`. -/
def write (s : State) : Logged State State := ⟨[s], .ret s⟩

def removeFreed (s : State) (order : ℤ) (addr : ℕ) : Logged State State := do
  let s ← lift (Malloc3.removeFreed s order addr)
  write s

def addToFreeOrder (s : State) (addr : ℕ) (order : ℤ) : Logged State State := do
  let s ← lift (Malloc3.addToFreeOrder s addr order)
  write s

def absorb (s : State) (keep gone : ℕ) : Logged State State := do
  let s ← write { s with mem := setNext s.mem keep (hdr s.mem gone).next }
  let s ← write { s with mem := setOrder s.mem keep ((hdr s.mem keep).order + 1) }
  let bytes ← lift (blockBytes (hdr s.mem keep).order)
  let s ← write { s with mem := setSize s.mem keep (subSize bytes sizeofMetadata) }
  let s ← write { s with mem := setIsFree s.mem keep true }
  write { s with mem := setPrevIf s.mem (hdr s.mem gone).next keep }

def mergeStep (s : State) (addr buddy : ℕ) : Logged State (State × ℕ × ℕ) :=
  if (hdr s.mem buddy).cookie ≠ s.cookie ∨ (hdr s.mem addr).cookie ≠ s.cookie then
    lift (.exit exitCode)
  else do
    let s ← removeFreed s (hdr s.mem buddy).order buddy
    let s ← removeFreed s (hdr s.mem buddy).order addr
    let keep := if addr < buddy then addr else buddy
    let gone := if addr < buddy then buddy else addr
    let s ← absorb s keep gone
    let buddy ← lift (buddyAddr keep (hdr s.mem keep).order)
    pure (s, keep, buddy)

def unionLoop : ℕ → State → ℕ → ℕ → Logged State (State × ℕ)
  | 0, _, _, _ => lift .fuel
  | n + 1, s, addr, buddy =>
    if (hdr s.mem buddy).isFree ∧ (hdr s.mem buddy).order < 10 then do
      let r ← mergeStep s addr buddy
      unionLoop n r.1 r.2.1 r.2.2
    else pure (s, addr)

def unionIfPossible (fuel : ℕ) (s : State) (addr : ℕ) : Logged State State :=
  if (hdr s.mem addr).isMmap then pure s
  else do
    let buddy ← lift (buddyAddr addr (hdr s.mem addr).order)
    let r ← unionLoop fuel s addr buddy
    let s ← write { r.1 with mem := setIsFree r.1.mem r.2 true }
    addToFreeOrder s r.2 (hdr s.mem r.2).order

/-- The mapped block `start` is taken out after `last`. Its cookie is tested when the list has been linked past
it. -/
def unlinkAfter (s : State) (start last : ℕ) : Logged State State := do
  let s ← write { s with mem := setNext s.mem last (hdr s.mem start).next }
  let s ← write { s with mem := setPrevIf s.mem (hdr s.mem start).next last }
  if (hdr s.mem start).cookie ≠ s.cookie then lift (.exit exitCode)
  else write { s with unmapped := (start, (hdr s.mem start).size + sizeofMetadata) :: s.unmapped }

def free (fuel : ℕ) (s : State) (p : ℕ) : Logged State State :=
  if p = 0 then pure s
  else
    let start := headerOf p
    if (hdr s.mem start).isMmap then
      if s.mmapHead = start then write { s with mmapHead := (hdr s.mem s.mmapHead).next }
      else do
        let last ← lift (prevMmap s.mem start fuel s.mmapHead s.mmapHead)
        unlinkAfter s start last
    else unionIfPossible fuel s start

/-! ## Forgetting the log -/

section Out

variable (s : State) (n addr buddy : ℕ)

@[simp] theorem write_out : (write s).out = .ret s := rfl

@[simp] theorem removeFreed_out (i : ℤ) : (removeFreed s i addr).out = Malloc3.removeFreed s i addr := by
  simp only [removeFreed, out_bind, out_lift, write_out]
  cases Malloc3.removeFreed s i addr <;> rfl

@[simp] theorem addToFreeOrder_out (i : ℤ) :
    (addToFreeOrder s addr i).out = Malloc3.addToFreeOrder s addr i := by
  simp only [addToFreeOrder, out_bind, out_lift, write_out]
  cases Malloc3.addToFreeOrder s addr i <;> rfl

@[simp] theorem absorb_out : (absorb s addr buddy).out = Malloc3.absorb s addr buddy := by
  simp only [absorb, out_bind, write_out, out_lift, Outcome.ret_bind]
  rfl

@[simp] theorem mergeStep_out : (mergeStep s addr buddy).out = Malloc3.mergeStep s addr buddy := by
  simp only [mergeStep, out_ite, out_lift, out_bind, removeFreed_out, absorb_out, out_pure]
  rfl

@[simp] theorem unionLoop_out : (unionLoop n s addr buddy).out = Malloc3.unionLoop n s addr buddy := by
  induction n generalizing s addr buddy with
  | zero => rfl
  | succ n ih => simp only [unionLoop, Malloc3.unionLoop, out_ite, out_bind, mergeStep_out, ih, out_pure]

@[simp] theorem unionIfPossible_out :
    (unionIfPossible n s addr).out = Malloc3.unionIfPossible n s addr := by
  simp only [unionIfPossible, out_ite, out_bind, out_lift, unionLoop_out, write_out, Outcome.ret_bind,
    addToFreeOrder_out, out_pure]
  rfl

theorem unlinkAfter_out (start last : ℕ) : (unlinkAfter s start last).out =
    let m := setNext s.mem last (hdr s.mem start).next
    let m := setPrevIf m (hdr m start).next last
    if (hdr m start).cookie ≠ s.cookie then .exit exitCode
    else .ret { s with
      mem := m
      unmapped := (start, (hdr m start).size + sizeofMetadata) :: s.unmapped } := by
  simp only [unlinkAfter, out_bind, write_out, Outcome.ret_bind, out_ite, out_lift]

theorem free_out (p : ℕ) : (free n s p).out = Malloc3.free n s p := by
  unfold free Malloc3.free
  generalize headerOf p = start
  simp only [out_ite, out_bind, out_lift, write_out, unlinkAfter_out, unionIfPossible_out, out_pure]

end Out

end Writes

/-! ## Detection -/

/-- **A block that a client may hold**: used, of an order that there is, and in the arena; or linked from
`MMAPhead`. -/
def LiveBlock (s : State) (a : ℕ) : Prop :=
  a + sizeofMetadata < 2 ^ 64 ∧
    if (hdr s.mem a).isMmap then ∃ L, Seg (fun b => (hdr s.mem b).next) s.mmapHead L 0 ∧ a ∈ L
    else (hdr s.mem a).isFree = false ∧ 0 ≤ (hdr s.mem a).order ∧ (hdr s.mem a).order ≤ maxOrder

/-- **`sfree(p)` ends the process before anything is changed.** -/
def Detected (s : State) (p : ℕ) : Prop :=
  ∃ N, ∀ n, N ≤ n → (Writes.free n s p).out = .exit exitCode ∧ ∀ t ∈ (Writes.free n s p).log, t = s

section Detect

variable {s : State} {a : ℕ}

theorem free_writes (hlt : a < 2 ^ 64) (n : ℕ) : Writes.free n s (a + sizeofMetadata) =
    if (hdr s.mem a).isMmap then
      if s.mmapHead = a then Writes.write { s with mmapHead := (hdr s.mem s.mmapHead).next }
      else do
        let last ← Logged.lift (prevMmap s.mem a n s.mmapHead s.mmapHead)
        Writes.unlinkAfter s a last
    else Writes.unionIfPossible n s a := by
  rw [Writes.free, if_neg (by unfold sizeofMetadata; omega), headerOf_add hlt]

/-- A block whose cookie is broken is not merged: either the loop notices, or it is not entered. -/
theorem unionIfPossible_writes {k : ℕ} (hk : k ≤ maxOrder) (hm : (hdr s.mem a).isMmap = false)
    (ho : (hdr s.mem a).order = k) (hck : (hdr s.mem a).cookie ≠ s.cookie) (n : ℕ) :
    ((hdr s.mem (peer a k)).isFree = true ∧ (hdr s.mem (peer a k)).order < 10 →
      Writes.unionIfPossible (n + 1) s a = Logged.lift (.exit exitCode)) ∧
    (¬ ((hdr s.mem (peer a k)).isFree = true ∧ (hdr s.mem (peer a k)).order < 10) →
      ∃ t, (Writes.unionIfPossible (n + 1) s a).out = .ret t) := by
  have hpeer : buddyAddr a (hdr s.mem a).order = .ret (peer a k) := by
    rw [ho, buddyAddr_peer (by unfold maxOrder at hk; omega)]
  constructor
  · intro hp
    rw [Writes.unionIfPossible, hm, if_neg Bool.false_ne_true, hpeer, Logged.lift_ret_bind, Writes.unionLoop,
      if_pos hp, Writes.mergeStep, if_pos (.inr hck)]
    rfl
  · intro hp
    rw [Writes.unionIfPossible_out, unionIfPossible, hm, if_neg Bool.false_ne_true, hpeer, Outcome.ret_bind,
      unionLoop, if_neg hp, Outcome.ret_bind]
    have ho' : (hdr (setIsFree s.mem a true) a).order = k := by rw [hdr_setIsFree, ho]
    have hidx : freedIdx (k : ℤ) = .ret k := by
      rw [freedIdx, if_pos (by omega), Int.toNat_natCast]
    simp only [ho', addToFreeOrder, hidx, Outcome.ret_bind]
    exact ⟨_, rfl⟩

/-- **A broken cookie of a block of the arena** is noticed if the block is about to be merged; otherwise the
block is put into its free list. -/
theorem detected_heap_iff (ha : LiveBlock s a) (hm : (hdr s.mem a).isMmap = false)
    (hck : (hdr s.mem a).cookie ≠ s.cookie) : Detected s (a + sizeofMetadata) ↔
      (hdr s.mem (peer a (hdr s.mem a).order.toNat)).isFree = true ∧
        (hdr s.mem (peer a (hdr s.mem a).order.toNat)).order < 10 := by
  obtain ⟨hlt, ha⟩ := ha
  rw [if_neg (by simp [hm])] at ha
  obtain ⟨-, h₀, hM⟩ := ha
  have hwrites := unionIfPossible_writes (k := (hdr s.mem a).order.toNat) (by omega) hm (by omega) hck
  have hfree : ∀ n, Writes.free n s (a + sizeofMetadata) = Writes.unionIfPossible n s a := fun n => by
    rw [free_writes (by omega), if_neg (by simp [hm])]
  unfold Detected
  simp only [hfree]
  constructor
  · rintro ⟨N, hN⟩
    by_contra hp
    obtain ⟨t, ht⟩ := (hwrites N).2 hp
    have := (hN (N + 1) (Nat.le_succ N)).1
    rw [ht] at this
    cases this
  · intro hp
    refine ⟨1, fun n hn => ?_⟩
    obtain ⟨n, rfl⟩ := Nat.exists_eq_succ_of_ne_zero (Nat.ne_zero_of_lt hn)
    rw [(hwrites n).1 hp]
    exact ⟨rfl, by simp⟩

/-- **A broken cookie of a mapped block is not noticed in time.** The first block is taken out of the list
without a look at its cookie, and another one before its cookie is looked at. -/
theorem not_detected_map (ha : LiveBlock s a) (hm : (hdr s.mem a).isMmap = true) :
    ¬ Detected s (a + sizeofMetadata) := by
  obtain ⟨hlt, ha⟩ := ha
  rw [if_pos hm] at ha
  obtain ⟨L, hL, hmem⟩ := ha
  rintro ⟨N, hN⟩
  simp only [free_writes (show a < 2 ^ 64 by omega), if_pos hm] at hN
  by_cases hh : s.mmapHead = a
  · simp only [if_pos hh] at hN
    cases (hN N le_rfl).1
  · simp only [if_neg hh] at hN
    obtain ⟨l₁, l₂, rfl, hnot⟩ := List.eq_append_cons_of_mem hmem
    obtain ⟨l₁, last, rfl⟩ : ∃ l last, l₁ = l ++ [last] := by
      rcases List.eq_nil_or_concat' l₁ with rfl | h
      · exact absurd hL.1 hh
      · exact h
    obtain ⟨r, hL₁, hL₂⟩ := seg_append.mp hL
    obtain rfl := hL₂.1
    obtain ⟨-, -, hlast⟩ := seg_snoc.mp hL₁
    have hprev : prevMmap s.mem _ (N + (l₁ ++ [last]).length + 1) s.mmapHead s.mmapHead = _ :=
      prevMmap_spec hL hnot (by omega)
    rw [List.getLastD_concat] at hprev
    have hlog := (hN (N + (l₁ ++ [last]).length + 1) (by omega)).2
    rw [hprev, Logged.lift_ret_bind] at hlog
    -- the first write makes `last` point past the block, which it did not before
    have hnext := congrArg (fun t => (hdr t.mem last).next)
      (hlog { s with mem := setNext s.mem last (hdr s.mem r).next } List.mem_cons_self)
    simp only [hdr_setNext, Nat.mod_eq_of_lt (hdr_next_lt s.mem r), hlast] at hnext
    exact hL₂.next_ne_self hnext

end Detect

/-- **A broken cookie is noticed in time exactly if the block is in the arena and its buddy looks free and
below the greatest order.** -/
theorem detected_iff {s : State} {a : ℕ} (ha : LiveBlock s a) (hck : (hdr s.mem a).cookie ≠ s.cookie) :
    Detected s (a + sizeofMetadata) ↔ (hdr s.mem a).isMmap = false ∧
      (hdr s.mem (peer a (hdr s.mem a).order.toNat)).isFree = true ∧
        (hdr s.mem (peer a (hdr s.mem a).order.toNat)).order < 10 := by
  by_cases hm : (hdr s.mem a).isMmap = true
  · exact iff_of_false (not_detected_map ha hm) fun h => by simp [h.1] at hm
  · rw [detected_heap_iff ha (by simpa using hm) hck]
    exact (and_iff_right (by simpa using hm)).symm

section Break

variable {base : ℕ} {s : State} {B : Layout} {L : List (ℕ × ℕ)} {a j k : ℕ} {f : Bool}

/-- The client writes over the cookie of the block at `a`. -/
def breakCookie (s : State) (a : ℕ) : State := { s with mem := setCookie s.mem a (s.cookie + 1) }

/-- **A broken cookie among good headers**: the block with its buddy. -/
theorem Inv.breakCookie (h : Inv base s B L) (ha : B a = some ⟨k, false⟩)
    (hz : B (buddy a k) = some ⟨j, f⟩) {t : State} (ht : t = breakCookie s (base + startSize * a)) :
    LiveBlock t (base + startSize * a) ∧ (hdr t.mem (base + startSize * a)).cookie ≠ t.cookie ∧
      (hdr t.mem (base + startSize * a)).isMmap = false ∧
      (hdr t.mem (peer (base + startSize * a) (hdr t.mem (base + startSize * a)).order.toNat)).isFree = f ∧
      (hdr t.mem (peer (base + startSize * a) (hdr t.mem (base + startSize * a)).order.toNat)).order = j := by
  have hT := h.repr.heap.tiles
  have hH := h.repr.heap.hdrs ha
  have hk : k ≤ 10 := hT.le_max ha
  have hself : hdr t.mem (base + startSize * a) =
      { slots base s.mem a with cookie := (s.cookie + 1) % 2 ^ 32 } := by
    rw [ht, Malloc3.breakCookie, hdr_setCookie]
    rfl
  have hother : hdr t.mem (base + startSize * buddy a k) = slots base s.mem (buddy a k) := by
    have hne : buddy a k ≠ a := buddy_ne a k
    rw [ht, Malloc3.breakCookie]
    show slots base (setCookie s.mem (base + startSize * a) (s.cookie + 1)) (buddy a k) = _
    rw [slots_setCookie, Function.update_of_ne hne]
  have hord : (hdr t.mem (base + startSize * a)).order = k := by rw [hself]; exact hH.order
  have hpeer : peer (base + startSize * a) (hdr t.mem (base + startSize * a)).order.toNat =
      base + startSize * buddy a k := by
    rw [hord, Int.toNat_natCast, peer, slot_xor h.arena (hT.lt ha) (by omega)]
  have hmm : (hdr t.mem (base + startSize * a)).isMmap = false := by rw [hself]; exact hH.isMmap
  rw [hpeer, hother]
  refine ⟨⟨?_, ?_⟩, ?_, hmm, h.repr.heap.marks hz (by simp), (h.repr.heap.hdrs hz).order⟩
  · have := h.arena.fits
    have := hT.lt ha
    unfold startSize sizeofMetadata arenaUnits at *
    omega
  · rw [if_neg (by simp [hmm]), hord]
    refine ⟨?_, by omega, by unfold maxOrder; omega⟩
    rw [hself]
    exact h.repr.heap.marks ha (by simp)
  · have := h.repr.cookie
    rw [hself, ht]
    show (s.cookie + 1) % 2 ^ 32 ≠ s.cookie
    omega

end Break

/-- One block of order 9 and one mapped block: the buddy of the former is free. -/
theorem detected_iff_first_half : ∃ w, Run Step (start (fun _ => 0) 0 4198400)
      [.smalloc ⟨true, none⟩ 65000, .smalloc ⟨true, some 1073741824⟩ 200000] w ∧
    Detected (breakCookie w.st 8388608) 8388648 := by
  obtain ⟨w, hrun, hi, -, -⟩ := exists_blockAndMap
  obtain ⟨hlive, hck, hmm, hfree, hord⟩ := hi.breakCookie (a := 0) (j := 9) (f := true) splitTo_self rfl rfl
  exact ⟨w, hrun, (detected_iff hlive hck).mpr ⟨hmm, hfree, by omega⟩⟩

/-- **A block whose buddy is in use**: `sfree` returns although the cookie is broken. -/
theorem broken_cookie_unnoticed : ∃ w, Run Step (start (fun _ => 0) 0 4198400)
      [.smalloc ⟨true, none⟩ 65000, .smalloc ⟨true, none⟩ 32000, .smalloc ⟨true, none⟩ 32000] w ∧
    LiveBlock (breakCookie w.st 8388608) 8388608 ∧
    (hdr (breakCookie w.st 8388608).mem 8388608).cookie ≠ (breakCookie w.st 8388608).cookie ∧
    ¬ Detected (breakCookie w.st 8388608) 8388648 := by
  obtain ⟨w, hrun, hi, -⟩ := exists_threeBlocks (fun _ => 0) boots_example ⟨true, none⟩
  rw [arenaBase_example] at hi
  obtain ⟨hlive, hck, hmm, hfree, -⟩ := hi.breakCookie (a := 0) (k := 9) (j := 8) (f := false) rfl rfl rfl
  refine ⟨w, hrun, hlive, hck, fun hd => ?_⟩
  have := ((detected_heap_iff hlive hmm hck).mp hd).1
  rw [hfree] at this
  cases this

end OsHomework.Malloc3
