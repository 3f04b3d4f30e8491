import OsHomework.Malloc3.Realloc
import OsHomework.Malloc3.Rises

/-!
# `malloc_3`: releasing a block twice

The pointer of a block that has been released may lead to the header of a free block, of a larger block, or
to a stale header inside another block, and `Free` runs the merge loop from it all the same.

* `freed_ne_of_union`: in a state that satisfies the representation invariant, the loop changes a free list
  from any header of the arena;
* `RIStep`, `Kept`: what runs of `smalloc` and `sfree` keep as long as the representation invariant holds,
  also where a merge has swallowed blocks that are in use; **`Kept.step`**;
* **`double_free_changes`**, and `double_free_lists_twice`: a block that is in `freed[10]` twice.
-/

set_option autoImplicit false

namespace OsHomework.Malloc3

open Buddy

/-! ## The second release -/

/-- The blocks linked from `head` and all free lists are the same. -/
def SameLists (s s' : State) : Prop :=
  (∀ l, Seg (fun a => (hdr s'.mem a).next) s'.head l 0 ↔ Seg (fun a => (hdr s.mem a).next) s.head l 0) ∧
    ∀ k ≤ maxOrder, s'.freed k = s.freed k

/-- **A release of an arena header changes a free list**, whatever the header holds: the block it ends at is
listed once more, or it is listed under an order that it did not have. -/
theorem freed_ne_of_union {s s' : State} {n A : ℕ} (hri : RI s) (ht : Tidy s.head s.mem)
    (ha : startSize ∣ A) (hmm : (hdr s.mem A).isMmap = false) (h : unionIfPossible n s A = .ret s') :
    ∃ k ≤ maxOrder, s'.freed k ≠ s.freed k := by
  obtain ⟨l, hl⟩ := hri
  obtain ⟨-, y, o, ho, hy, hrest⟩ := unionIfPossible_rises ha hmm ht h
  refine ⟨o, ho, fun hsame => ?_⟩
  rw [hsame] at hy
  obtain ⟨hmem, -, hord⟩ := (hl.freed o ho y).mp hy
  obtain ⟨-, hins | hlt⟩ := hrest (hl.list.head_le y hmem)
  · have hlen := congrArg List.length (hsame.symm.trans hins)
    rw [List.orderedInsert_length] at hlen
    omega
  · omega

/-! ## Bytes that no header owns -/

section Bytes

variable {base x : ℕ} {m : Mem} {s : State} {B : Layout} {L : List (ℕ × ℕ)}

theorem dvd_next_iff : startSize ∣ (hdr m x).next ↔ startSize ∣ (m (x + 24)).toNat := by
  simp only [hdr, Mem.load, startSize]
  omega

theorem isMmap_eq_false_iff : (hdr m x).isMmap = false ↔ (m (x + 17)).toNat = 0 := by
  simp only [hdr, Mem.load, bne_eq_false_iff_eq]
  omega

theorem Arena.dvd (h : Arena base) : startSize ∣ base :=
  (show startSize ∣ 2 ^ 22 by decide).trans h.aligned

theorem dvd_nextAddr (h : Arena base) (a k : ℕ) : startSize ∣ nextAddr base a k := by
  unfold nextAddr
  split_ifs
  · exact dvd_zero _
  · exact Nat.dvd_add h.dvd (Nat.dvd_mul_right _ _)

/-- **Stale `next` fields stay tidy** when bytes outside the headers are kept or cleared. -/
theorem Inv.tidy (h : Inv base s B L) (hL : ∀ r ∈ L, startSize ∣ r.1)
    (hm : KeptOrCleared base B L m s.mem) (ht : Tidy base m) : Tidy base s.mem := by
  intro x hlo hx
  by_cases hB : ∃ u c, B u = some c ∧ x = base + startSize * u
  · obtain ⟨u, c, hu, rfl⟩ := hB
    rw [hdr_slot, (h.repr.heap.hdrs hu).next]
    exact dvd_nextAddr h.arena _ _
  by_cases hr : ∃ r ∈ L, x = r.1
  · obtain ⟨r, hr, rfl⟩ := hr
    by_cases h₀ : (hdr s.mem r.1).next = 0
    · rw [h₀]
      exact dvd_zero _
    · obtain ⟨r', hr', he⟩ := h.maps.next_mem hr h₀
      rw [he]
      exact hL r' hr'
  -- no header owns the byte that decides
  have hbyte : s.mem (x + 24) = m (x + 24) ∨ s.mem (x + 24) = 0 := by
    obtain ⟨i, rfl⟩ := hx
    obtain ⟨j, rfl⟩ := h.arena.dvd
    apply hm
    · intro u c hu
      have hne : startSize * i ≠ startSize * j + startSize * u := fun e => hB ⟨u, c, hu, e⟩
      unfold startSize at *
      omega
    · intro r hrL
      obtain ⟨k, hk⟩ := hL r hrL
      have hne : startSize * i ≠ r.1 := fun e => hr ⟨r, hrL, e⟩
      unfold startSize at *
      omega
  rw [dvd_next_iff]
  rcases hbyte with he | he <;> rw [he]
  · exact dvd_next_iff.mp (ht x hlo hx)
  · exact dvd_zero _

theorem Inv.heapMarks (h : Inv base s B L) (hm : KeptOrCleared base B L m s.mem)
    (ht : ∀ a < arenaUnits, (slots base m a).isMmap = false) :
    ∀ a < arenaUnits, (slots base s.mem a).isMmap = false := by
  intro a ha
  by_cases hB : ∃ c, B a = some c
  · obtain ⟨c, hc⟩ := hB
    exact (h.repr.heap.hdrs hc).isMmap
  have hbyte : s.mem (base + startSize * a + 17) = m (base + startSize * a + 17) ∨
      s.mem (base + startSize * a + 17) = 0 := by
    apply hm
    · intro u c hu
      have hne : u ≠ a := fun e => hB ⟨c, e ▸ hu⟩
      unfold startSize
      omega
    · intro r hr
      have := (h.maps.fresh hr).arena
      unfold startSize sizeofMetadata at *
      omega
  rw [← hdr_slot, isMmap_eq_false_iff]
  rcases hbyte with he | he <;> rw [he]
  · exact isMmap_eq_false_iff.mp (ht a ha)
  · rfl

end Bytes

/-! ## Runs of `smalloc` and `sfree` -/

/-- The actions of the runs at hand. Regions that `mmap` returns start at a page. -/
def AllocOrFree : Op → Prop
  | .smalloc sys _ => ∀ addr, sys.mmapAddr = some addr → 4096 ∣ addr
  | .sfree _ => True
  | _ => False

/-- A call of `smalloc` or `sfree` after which the representation invariant holds. -/
def RIStep (w : World) (op : Op) (w' : World) : Prop := Step w op w' ∧ AllocOrFree op ∧ RI w'.st

/-- **What such runs keep.** The pointers the client holds are `H`, to headers of the arena, and those to the
mapped blocks `L`. Nothing is said about the blocks behind `H`: a merge may have swallowed them. -/
structure Kept (base : ℕ) (w : World) (H : List ℕ) (L : List (ℕ × ℕ)) : Prop where
  head : w.st.head = base
  ri : RI w.st
  tidy : Tidy base w.st.mem
  marks : ∀ a < arenaUnits, (slots base w.st.mem a).isMmap = false
  maps : Maps base w.st.cookie w.st.mem w.st.mmapHead L
  pages : ∀ r ∈ L, startSize ∣ r.1
  heap : ∀ p ∈ H, ∃ a < arenaUnits, p = base + startSize * a + sizeofMetadata
  live : w.live.Perm (H ++ L.map fun r => r.1 + sizeofMetadata)

namespace Kept

variable {base p : ℕ} {w w' : World} {H : List ℕ} {L : List (ℕ × ℕ)}

theorem inv (h : Kept base w H L) : ∃ B, Inv base w.st B L := by
  obtain ⟨hA, B, hB⟩ := ri_iff.mp h.ri
  rw [h.head] at hA hB
  exact ⟨B, hA, h.head, hB, h.maps⟩

theorem mem_live (h : Kept base w H L) : p ∈ w.live ↔ p ∈ H ∨ ∃ r ∈ L, p = r.1 + sizeofMetadata := by
  rw [h.live.mem_iff, List.mem_append, List.mem_map]
  simp only [eq_comm]

/-- **An allocation.** -/
theorem smalloc (h : Kept base w H L) {sys : Sys} {size : ℕ} (hs : RIStep w (.smalloc sys size) w') :
    ∃ H' L', Kept base w' H' L' := by
  obtain ⟨B, hi⟩ := h.inv
  obtain ⟨⟨hadm, N, hN⟩, hpage, hri⟩ := hs
  obtain ⟨s', B', L', p, he, hi', hck, hto, hkc, hL'⟩ := malloc_spec sys hi
    (fun hm => (hadm hm).freshAnswer hi.head hi.maps fun r hr => h.mem_live.mpr (.inr ⟨r, hr, rfl⟩))
    (show maxOrder + L.length < max N (maxOrder + L.length + 1) by omega)
  have hcall := hN _ (le_max_left N (maxOrder + L.length + 1))
  simp only [call, Malloc3.smalloc, he, Outcome.ret_bind] at hcall
  obtain rfl := Outcome.ret.inj hcall
  have hpages : ∀ r ∈ L', startSize ∣ r.1 := by
    intro r hr
    rcases hL' r hr with hr | hr
    · exact h.pages r hr
    · exact (show startSize ∣ 4096 by decide).trans (hpage r.1 hr)
  have key : ∀ H', (∀ q ∈ H', ∃ a < arenaUnits, q = base + startSize * a + sizeofMetadata) →
      (track p w.live).Perm (H' ++ L'.map fun r => r.1 + sizeofMetadata) →
        Kept base ⟨s', track p w.live⟩ H' L' := fun H' hH hlive =>
    ⟨hi'.head, hri, hi'.tidy hpages hkc h.tidy, hi'.heapMarks hkc h.marks, hi'.maps, hpages, hH, hlive⟩
  cases hto with
  | null => exact ⟨H, L, key H h.heap h.live⟩
  | @heap k j a hk ht =>
    have ha := hi.repr.heap.tiles.lt ht.block
    refine ⟨_ :: H, L, key _ (List.forall_mem_cons.mpr ⟨⟨a, ha, rfl⟩, h.heap⟩) ?_⟩
    rw [track, if_neg (by have := hi.arena.pos; omega)]
    exact h.live.cons _
  | @map addr hmin hf =>
    refine ⟨H, _, key H h.heap ?_⟩
    rw [track, if_neg (by have := hf.pos; omega), List.map_append, ← List.append_assoc]
    exact (h.live.cons _).trans (List.perm_append_singleton _ _).symm

/-- **A release of a mapped block.** -/
theorem free_map (h : Kept base w H L) {r : ℕ × ℕ} (hr : r ∈ L) {n : ℕ} {s' : State}
    (hn : L.length < n) (hs : free n w.st (r.1 + sizeofMetadata) = .ret s') (hri : RI s') :
    ∃ L', Kept base ⟨s', w.live.erase (r.1 + sizeofMetadata)⟩ H L' := by
  obtain ⟨B, hi⟩ := h.inv
  obtain ⟨m, q, us, he, hi', ho⟩ := Malloc3.free_map hi hr hn
  obtain rfl := Outcome.ret.inj (he.symm.trans hs)
  have hpages : ∀ r' ∈ L.erase r, startSize ∣ r'.1 := fun r' hr' => h.pages r' (List.mem_of_mem_erase hr')
  have hkc : KeptOrCleared base B (L.erase r) w.st.mem m := fun x _ hx => .inl (ho x hx)
  refine ⟨L.erase r, hi'.head, hri, hi'.tidy hpages hkc h.tidy, hi'.heapMarks hkc h.marks, hi'.maps, hpages,
    h.heap, ?_⟩
  have hperm : w.live.Perm ((r.1 + sizeofMetadata) ::
      (H ++ (L.erase r).map fun r => r.1 + sizeofMetadata)) :=
    h.live.trans ((((List.perm_cons_erase hr).map _).append_left H).trans List.perm_middle)
  have := hperm.erase (r.1 + sizeofMetadata)
  rwa [List.erase_cons_head] at this

/-- **A release of a pointer into the arena**, whatever its header is by now. -/
theorem free_heap (h : Kept base w H L) (hp : p ∈ H) {n : ℕ} {s' : State} (hs : free n w.st p = .ret s')
    (hri : RI s') : Kept base ⟨s', w.live.erase p⟩ (H.erase p) L := by
  obtain ⟨a, ha, rfl⟩ := h.heap p hp
  obtain ⟨B, hi⟩ := h.inv
  have hA := hi.arena
  have hdvd : startSize ∣ base + startSize * a := Nat.dvd_add hA.dvd (Nat.dvd_mul_right _ _)
  have hmm := h.marks a ha
  rw [free_eq_union hA ha hmm] at hs
  obtain ⟨hst, y, o, ho, hy, hrest⟩ := unionIfPossible_rises hdvd hmm h.tidy hs
  have hhead : s'.head = base := by rw [hst, h.head]
  obtain ⟨l, hl⟩ := hri
  have hlo : base ≤ y := by
    rw [← hhead]
    exact hl.list.head_le y ((hl.freed o ho y).mp hy).1
  obtain ⟨hr, -⟩ := hrest hlo
  refine ⟨hhead, ⟨l, hl⟩, hr.tidy, fun b hb => ?_, ?_, h.pages, fun q hq => h.heap q (List.mem_of_mem_erase hq),
    ?_⟩
  · exact (hr.isMmap _ (Nat.dvd_add hA.dvd (Nat.dvd_mul_right _ _))).trans (h.marks b hb)
  · -- the mapped blocks lie outside the arena, where only `prev` can have changed
    have hmaps : Maps base w.st.cookie s'.mem w.st.mmapHead L := by
      apply h.maps.congr_prev
      intro r hr'
      apply hr.out _ (h.pages r hr')
      have := (h.maps.fresh hr').arena
      unfold startSize sizeofMetadata at *
      omega
    rw [hst]
    exact hmaps
  · have hperm : w.live.Perm ((base + startSize * a + sizeofMetadata) ::
        (H.erase (base + startSize * a + sizeofMetadata) ++ L.map fun r => r.1 + sizeofMetadata)) :=
      h.live.trans ((List.perm_cons_erase hp).append_right _)
    have := hperm.erase (base + startSize * a + sizeofMetadata)
    rwa [List.erase_cons_head] at this

/-- **One step.** -/
theorem step (h : Kept base w H L) {op : Op} (hs : RIStep w op w') : ∃ H' L', Kept base w' H' L' := by
  cases op with
  | smalloc sys size => exact h.smalloc hs
  | scalloc sys num size => exact absurd hs.2.1 id
  | write x v => exact absurd hs.2.1 id
  | sfree p =>
    obtain ⟨⟨hadm, N, hN⟩, -, hri⟩ := hs
    have hcall := hN _ (le_max_left N (L.length + 1))
    simp only [call, sfree] at hcall
    obtain ⟨s', hs, hw⟩ := Outcome.bind_eq_ret.mp hcall
    obtain rfl := Outcome.ret.inj hw
    rcases hadm with rfl | hp
    · have h0 : 0 ∉ w.live := by
        rw [h.mem_live]
        rintro (h0 | ⟨r, -, h0⟩)
        · obtain ⟨a, -, he⟩ := h.heap 0 h0
          unfold sizeofMetadata at he
          omega
        · unfold sizeofMetadata at h0
          omega
      rw [free, if_pos rfl] at hs
      obtain rfl := Outcome.ret.inj hs
      rw [List.erase_of_not_mem h0]
      exact ⟨H, L, h⟩
    · rcases h.mem_live.mp hp with hp | ⟨r, hr, rfl⟩
      · exact ⟨_, _, h.free_heap hp hs hri⟩
      · exact ⟨H, h.free_map hr (by omega) hs hri⟩

end Kept

/-- Before the first call: fresh memory from `sbrk` is zero. -/
theorem kept_start {m : Mem} {ck brk : ℕ} (hb : Boots ck brk) (hz : ∀ x, brk ≤ x → m x = 0) :
    Kept (arenaBase brk) (start m ck brk) [] [] := by
  have hi := inv_initArena m hb true
  have hle : brk ≤ arenaBase brk := Nat.le_add_right _ _
  have hkc : KeptOrCleared (arenaBase brk) (fresh maxOrder arenaUnits) [] m
      (initArena (boot m ck brk) true).mem := fun x hx _ => .inl (initArena_outside m hb true x hx)
  have ht : Tidy (arenaBase brk) m := by
    intro x hx _
    rw [dvd_next_iff, hz _ (by omega)]
    exact dvd_zero _
  have hmarks : ∀ a < arenaUnits, (slots (arenaBase brk) m a).isMmap = false := by
    intro a _
    rw [← hdr_slot, isMmap_eq_false_iff, hz _ (by omega)]
    rfl
  exact ⟨hi.head, (wInv_start m hb).ri, hi.tidy (by simp) hkc ht, hi.heapMarks hkc hmarks, hi.maps,
    by simp, by simp, .refl _⟩

/-! ## Releasing twice -/

/-- **A pointer into the arena that was returned once cannot be released without effect**: in every later
state of a run in which the representation invariant holds, above all after it has been released, `sfree` of
it does not return or it changes a free list. -/
theorem double_free_changes {m : Mem} {ck brk : ℕ} (hb : Boots ck brk) (hz : ∀ x, brk ≤ x → m x = 0)
    {ops ops' : List Op} {w₁ w : World} {p : ℕ} (hrun₁ : Run RIStep (start m ck brk) ops w₁)
    (hp : p ∈ w₁.live) (hheap : (hdr w₁.st.mem (headerOf p)).isMmap = false)
    (hrun : Run RIStep w₁ ops' w) :
    ¬ ∃ s', Returns (fun n => sfree n w.st p) s' ∧ SameLists w.st s' := by
  have hstep : ∀ t l u, (∃ H L, Kept (arenaBase brk) t H L) → RIStep t l u →
      ∃ H L, Kept (arenaBase brk) u H L := fun t l u ⟨H, L, h⟩ hs => h.step hs
  obtain ⟨H, L, h₁⟩ := hrun₁.invariant ⟨[], [], kept_start hb hz⟩ hstep
  obtain ⟨H', L', h⟩ := hrun.invariant ⟨H, L, h₁⟩ hstep
  have hA := hb.arena
  -- the header at hand is one of the arena
  obtain ⟨a, ha, rfl⟩ : ∃ a < arenaUnits, p = arenaBase brk + startSize * a + sizeofMetadata := by
    rcases h₁.mem_live.mp hp with hp | ⟨r, hr, rfl⟩
    · exact h₁.heap p hp
    · obtain ⟨B, hi⟩ := h₁.inv
      rw [headerOf_add (hi.map_lt hr), (h₁.maps.hdrs hr).isMmap] at hheap
      cases hheap
  rintro ⟨s', ⟨N, hN⟩, -, hsame⟩
  have hs := hN N le_rfl
  simp only [sfree, free_eq_union hA ha (h.marks a ha)] at hs
  have ht := h.tidy
  rw [← h.head] at ht
  obtain ⟨k, hk, hne⟩ := freed_ne_of_union h.ri ht (Nat.dvd_add hA.dvd (Nat.dvd_mul_right _ _)) (h.marks a ha) hs
  exact hne (hsame k hk)

/-- One block, allocated and released. -/
theorem exists_released : ∃ w₁ w, Run RIStep (start (fun _ => 0) 0 4198400) [.smalloc ⟨true, none⟩ 65000] w₁ ∧
    8388648 ∈ w₁.live ∧ (hdr w₁.st.mem (headerOf 8388648)).isMmap = false ∧
    Run RIStep w₁ [.sfree 8388648] w ∧ 8388648 ∉ w.live ∧
    Inv 8388608 w.st (fresh maxOrder arenaUnits) [] := by
  obtain ⟨w₁, hrun, hw₁, hi₁, hl₁, hheap, -⟩ := exists_oneBlock
  have hT := tiles_fresh (M := maxOrder) (z := arenaUnits) (two_pow_dvd_arenaUnits (by decide))
    (Nat.two_pow_pos 15)
  have hblock := fresh_block (i := 0) (by norm_num)
  have hq : Quiet oneBlock 1 0 9 :=
    quiet_splitTo (r := 0) (dvd_zero _) (allocOnly_fresh.quiet_mark hT rfl hblock)
  have hrel : release oneBlock 1 0 9 = fresh maxOrder arenaUnits := by
    rw [oneBlock, release_splitTo (r := 0) (n := 1) (dvd_zero _) fun u h₁ h₂ => hT.inner hblock h₁ h₂]
    exact allocOnly_fresh.release_mark rfl hblock
  obtain ⟨w, hs, hi, -, hl⟩ := step_sfree (w := w₁) hi₁ splitTo_self hq (by rw [hl₁, firstBlock]; simp)
  rw [firstBlock] at hs hl
  rw [show maxOrder - 9 = 1 from rfl, hrel] at hi
  have hri := ri_iff.mpr ⟨hi.head ▸ hi.arena, _, hi.head ▸ hi.repr⟩
  refine ⟨w₁, w, .cons ⟨hrun.single, by simp [AllocOrFree], hw₁.ri⟩ (.nil _), by rw [hl₁]; simp, hheap,
    .cons ⟨hs, trivial, hri⟩ (.nil _), by rw [hl, hl₁]; simp, hi⟩

/-- Releasing that block a second time. -/
theorem double_free_changes_one_block : ∃ w₁ w,
    Run RIStep (start (fun _ => 0) 0 4198400) [.smalloc ⟨true, none⟩ 65000] w₁ ∧ 8388648 ∈ w₁.live ∧
    Run RIStep w₁ [.sfree 8388648] w ∧ 8388648 ∉ w.live ∧
    ¬ ∃ s', Returns (fun n => sfree n w.st 8388648) s' ∧ SameLists w.st s' := by
  obtain ⟨w₁, w, hrun₁, hp, hheap, hrun, hgone, -⟩ := exists_released
  exact ⟨w₁, w, hrun₁, hp, hrun, hgone,
    double_free_changes boots_example (fun _ _ => rfl) hrun₁ hp hheap hrun⟩

/-- **A free block of the greatest order is listed again** when it is released and so is not merged. -/
theorem free_listed {base a n : ℕ} {s : State} {B : Layout} {L : List (ℕ × ℕ)} {f : Bool}
    (h : Inv base s B L) (ha : B a = some ⟨maxOrder, true⟩)
    (hb : B (buddy a maxOrder) = some ⟨maxOrder, f⟩) :
    free (n + 1) s (base + startSize * a + sizeofMetadata) = .ret { s with
      mem := setIsFree s.mem (base + startSize * a) true
      freed := Function.update s.freed maxOrder
        ((s.freed maxOrder).orderedInsert (· ≤ ·) (base + startSize * a)) } := by
  have hlt := h.repr.heap.tiles.lt ha
  have hH := h.repr.heap.hdrs ha
  have hord : (slots base (setIsFree s.mem (base + startSize * a) true) a).order = (maxOrder : ℕ) :=
    (order_setIsFree ..).trans hH.order
  have hstop : ¬ ((slots base s.mem (buddy a maxOrder)).isFree = true ∧
      (slots base s.mem (buddy a maxOrder)).order < 10) := by
    rw [(h.repr.heap.hdrs hb).order]
    rintro ⟨-, hlt⟩
    exact absurd hlt (show ¬ ((maxOrder : ℕ) : ℤ) < 10 by decide)
  rw [free_eq_union h.arena hlt hH.isMmap, unionIfPossible, hdr_slot, hH.isMmap, if_neg (by simp), hH.order,
    buddyAddr_slot h.arena hlt (by decide), Outcome.ret_bind, unionLoop, hdr_slot, if_neg hstop,
    Outcome.ret_bind]
  simp only [hdr_slot, hord, addToFreeOrder_eq le_rfl]

/-- **The second release returns**, and `freed[10]` holds the first block of the arena twice. -/
theorem double_free_lists_twice : ∃ w₁ w s',
    Run RIStep (start (fun _ => 0) 0 4198400) [.smalloc ⟨true, none⟩ 65000] w₁ ∧ 8388648 ∈ w₁.live ∧
    (hdr w₁.st.mem (headerOf 8388648)).isMmap = false ∧ Run RIStep w₁ [.sfree 8388648] w ∧
    8388648 ∉ w.live ∧ RI w.st ∧ Returns (fun n => sfree n w.st 8388648) s' ∧
    (s'.freed 10).count 8388608 = 2 ∧ ¬ SameLists w.st s' := by
  obtain ⟨w₁, w, hrun₁, hp, hheap, hrun, hgone, hi⟩ := exists_released
  have h0 := fresh_block (i := 0) (by norm_num)
  have hb : fresh maxOrder arenaUnits (buddy 0 maxOrder) = some ⟨maxOrder, true⟩ :=
    fresh_block (i := 1) (by norm_num)
  have hri : RI w.st := ri_iff.mpr ⟨hi.head ▸ hi.arena, _, hi.head ▸ hi.repr⟩
  have hfree := free_listed (n := 0) hi h0 hb
  rw [firstBlock] at hfree
  -- the block was listed once
  have hone : (w.st.freed 10).count 8388608 = 1 :=
    List.count_eq_one_of_mem ((hi.repr.lists.sorted le_rfl).imp ne_of_lt) ((hi.repr.lists.mem_slot le_rfl).mpr h0)
  have htwo : ((w.st.freed 10).orderedInsert (· ≤ ·) 8388608).count 8388608 = 2 := by
    rw [(List.perm_orderedInsert _ _ _).count_eq, List.count_cons_self, hone]
  refine ⟨w₁, w, _, hrun₁, hp, hheap, hrun, hgone, hri, settles_free.returns hfree, htwo, ?_⟩
  rintro ⟨-, hsame⟩
  have hsame : (w.st.freed 10).orderedInsert (· ≤ ·) 8388608 = w.st.freed 10 := hsame 10 le_rfl
  rw [hsame, hone] at htwo
  cases htwo

end OsHomework.Malloc3
