import OsHomework.Malloc3.Runs

/-!
# `malloc_3`: the representation invariant along runs

* `free_one_merge`: a release that merges once, computed from the headers alone;
* **`free_meets_smaller`**: what `Free` does to a left half whose buddy region has been split and
  starts with a free block: it takes the whole region, whatever else is in it;
* **`ri_of_quiet_run`**: if no release in a run meets a free buddy of a smaller order, the
  representation invariant holds throughout and no call fails to return;
* `ri_breaks`: five calls after which it does not hold.
-/

set_option autoImplicit false

namespace OsHomework.Malloc3

open Buddy

/-! ## A free buddy of a smaller order -/

section Smaller

variable {base : ℕ} {s : State} {B : Layout} {L : List (ℕ × ℕ)}

/-- **A release that merges once.** This is computed from the headers alone, so it also describes what
happens when the header at the buddy address is that of a smaller block, or a stale one. -/
theorem free_one_merge {y k i j t fuel : ℕ} (hA : Arena base) (hy : y < arenaUnits)
    (hz : buddy y k < arenaUnits) (hk : k < 15) (hj : j < 10) (hi : i < maxOrder)
    (hcy : (slots base s.mem y).cookie = s.cookie) (hmy : (slots base s.mem y).isMmap = false)
    (hoy : (slots base s.mem y).order = k)
    (hcz : (slots base s.mem (buddy y k)).cookie = s.cookie)
    (hfz : (slots base s.mem (buddy y k)).isFree = true) (hoz : (slots base s.mem (buddy y k)).order = j)
    (ho : (slots base s.mem (min y (buddy y k))).order = i)
    (hn : (slots base s.mem (max y (buddy y k))).next = nextAddr base (max y (buddy y k)) t)
    (hstop : ¬ ((slots base s.mem (buddy (min y (buddy y k)) (i + 1))).isFree = true ∧
      (slots base s.mem (buddy (min y (buddy y k)) (i + 1))).order < 10))
    (hne : buddy (min y (buddy y k)) (i + 1) ≠ max y (buddy y k) + 2 ^ t) (hfuel : 1 < fuel) :
    ∃ m f, free fuel s (base + startSize * y + sizeofMetadata) =
        .ret { s with mem := m, freed := f } ∧
      slots base m = prevAt (Function.update (slots base s.mem) (min y (buddy y k))
        (mergedHdr (slots base s.mem (min y (buddy y k))) i (nextAddr base (max y (buddy y k)) t)))
        (max y (buddy y k) + 2 ^ t) (base + startSize * min y (buddy y k)) ∧
      base + startSize * min y (buddy y k) ∈ f (i + 1) := by
  have hyz := (buddy_ne y k).symm
  have htpos := Nat.two_pow_pos t
  have hi10 : i < 10 := hi
  obtain ⟨m, he, hslots, -⟩ := mergeStep_slots (t := t) hA (min_lt_of_left_lt hy) hyz hcy hcz hoz
    (by unfold maxOrder; omega) ho (by omega) (buddyAddr_slot hA (by omega) (by omega)) hn
  generalize hf : Function.update s.freed j _ = f at he
  set a := min y (buddy y k) with ha
  have hself : slots base m a =
      mergedHdr (slots base s.mem a) i (nextAddr base (max y (buddy y k)) t) := by
    rw [hslots, prevAt_of_ne (by omega), Function.update_self]
  have hbud : slots base m (buddy a (i + 1)) = slots base s.mem (buddy a (i + 1)) := by
    rw [hslots, prevAt_of_ne hne, Function.update_of_ne (buddy_ne a (i + 1))]
  have hset : slots base (setIsFree m (base + startSize * a) true) = slots base m := by
    rw [slots_setIsFree]
    refine Function.update_eq_self_iff.mpr ?_
    rw [hself]
    rfl
  have hord : (slots base (setIsFree m (base + startSize * a) true) a).order = (i + 1 : ℕ) := by
    rw [hset, hself]
    rfl
  obtain ⟨n, rfl⟩ : ∃ n, fuel = n + 2 := ⟨fuel - 2, by omega⟩
  refine ⟨setIsFree m (base + startSize * a) true,
    Function.update f (i + 1) ((f (i + 1)).orderedInsert (· ≤ ·) (base + startSize * a)), ?_,
    hset.trans hslots, ?_⟩
  · rw [free_eq_union hA hy hmy, unionIfPossible, hdr_slot, hmy, if_neg (by simp), hoy, buddyAddr_slot hA hy hk,
      Outcome.ret_bind, unionLoop, hdr_slot, if_pos ⟨hfz, by rw [hoz]; omega⟩, he, Outcome.ret_bind]
    simp only
    rw [unionLoop, hdr_slot, if_neg (by rw [hbud]; exact hstop), Outcome.ret_bind]
    simp only [hdr_slot, hord, addToFreeOrder_eq (show i + 1 ≤ maxOrder by omega)]
  · rw [Function.update_self, List.mem_orderedInsert]
    exact .inl rfl

/-- **Freeing a left half whose buddy region starts with a smaller free block.** The block grows to
order `k + 1` although only the first `2 ^ j` units of the region were free, and its `next` now points
into it. The loop stops after this merge when the next buddy is in use or of the greatest order. -/
theorem free_meets_smaller {a k j fuel : ℕ} {d : Cell} (h : Inv base s B L)
    (ha : B a = some ⟨k, false⟩) (hleft : 2 ^ (k + 1) ∣ a) (hjk : j < k) (hk : k < maxOrder)
    (hb : B (a + 2 ^ k) = some ⟨j, true⟩) (hd : B (buddy a (k + 1)) = some d)
    (hstop : d.free = true → d.order = maxOrder) (hfuel : 1 < fuel) :
    ∃ m f, free fuel s (base + startSize * a + sizeofMetadata) =
        .ret { s with mem := m, freed := f } ∧
      slots base m = prevAt (Function.update (slots base s.mem) a
        (mergedHdr (slots base s.mem a) k (base + startSize * (a + 2 ^ k + 2 ^ j))))
        (a + 2 ^ k + 2 ^ j) (base + startSize * a) ∧
      base + startSize * a ∈ f (k + 1) := by
  have hT := h.repr.heap.tiles
  have hA := h.arena
  have hH := h.repr.heap
  have hpow : 2 ^ (k + 1) = 2 * 2 ^ k := by ring
  have hjpos := Nat.two_pow_pos j
  have hjlt := two_pow_lt hjk
  have hk10 : k < 10 := hk
  have hout := buddy_out hleft
  have hbud := buddy_left hleft
  have hmin : min a (buddy a k) = a := min_eq_left (by omega)
  have hmax : max a (buddy a k) = a + 2 ^ k := by rw [hbud]; exact max_eq_right (by omega)
  have hend : a + 2 ^ (k + 1) ≤ arenaUnits := add_le_of_dvd hleft
    ((pow_dvd_pow 2 (by omega)).trans (dvd_refl arenaUnits)) (hT.lt ha)
  have hnext : nextAddr base (a + 2 ^ k) j = base + startSize * (a + 2 ^ k + 2 ^ j) := by
    rw [nextAddr, if_neg (by omega)]
  rw [← hbud] at hb
  obtain ⟨m, f, he, hslots, hf⟩ := free_one_merge (k := k) (i := k) (j := j) (t := j) hA (hT.lt ha)
    (hT.lt hb) (by omega) (by omega) hk (hH.hdrs ha).cookie (hH.hdrs ha).isMmap (hH.hdrs ha).order
    (hH.hdrs hb).cookie (hH.marks hb (by simp)) (hH.hdrs hb).order
    (by rw [hmin]; exact (hH.hdrs ha).order)
    (by rw [hmax, ← hbud]; exact (hH.hdrs hb).next)
    (by
      rw [hmin, hH.marks hd (by simp), (hH.hdrs hd).order]
      rintro ⟨h₁, h₂⟩
      rw [hstop h₁] at h₂
      exact absurd h₂ (by decide))
    (by rw [hmin, hmax]; omega) hfuel
  rw [hmin, hmax, hnext] at hslots
  rw [hmin] at hf
  exact ⟨m, f, he, hslots, hf⟩

/-- The damage: the next block starts inside the one before it. -/
theorem not_ri_of_next {m : Mem} {f : ℕ → List ℕ} {a k c : ℕ} (hk : k ≤ maxOrder)
    (ho : (slots base m a).order = k) (hn : (slots base m a).next = base + startSize * c)
    (hpos : 0 < base) (hc : c < a + 2 ^ k) (hf : base + startSize * a ∈ f k) :
    ¬ RI { s with mem := m, freed := f } := by
  rintro ⟨l, hl⟩
  obtain ⟨hmem, -, -⟩ := (hl.freed k hk _).mp hf
  have hnext := (hl.list.next_eq (fun _ _ => blockLen_pos) _ hmem).2
  have hlen : blockLen m (base + startSize * a) = startSize * 2 ^ k := by
    rw [blockLen, hdr_slot, ho, Int.toNat_natCast]
  simp only [hdr_slot, hn, hlen] at hnext
  unfold startSize at hnext
  split_ifs at hnext <;> omega

end Smaller

/-! ## Runs -/

/-- A step that, if it is a release, is a quiet one. -/
def QuietStep (w : World) (op : Op) (w' : World) : Prop := Step w op w' ∧ QuietOp w op

/-- **Along every run whose releases are quiet** the representation invariant holds, what the client
holds does not overlap, and every further quiet call returns. -/
theorem ri_of_quiet_run (m : Mem) {ck brk : ℕ} (hb : Boots ck brk) {ops : List Op} {w : World}
    (hrun : Run QuietStep (start m ck brk) ops w) :
    RI w.st ∧ LiveOk w.st w.live ∧ ∀ op, Admissible w op → QuietOp w op → ∃ w', Step w op w' := by
  have hw : WInv (arenaBase brk) w :=
    hrun.invariant (wInv_start m hb) fun _ _ _ hi hs => hi.step hs.1 hs.2
  exact ⟨hw.ri, hw.liveOk, fun _ ha hq => hw.progress ha hq⟩

/-- A break that is not aligned, so that the arena starts at 8 MiB. -/
theorem boots_example : Boots 0 4198400 := ⟨by norm_num, by norm_num, by unfold maxSize; norm_num⟩

theorem arenaBase_example : arenaBase 4198400 = 8388608 := by
  unfold arenaBase maxSize; norm_num

theorem takes_fresh {k : ℕ} (hk : k ≤ maxOrder) :
    Takes (fresh maxOrder arenaUnits) k maxOrder 0 := by
  refine ⟨fresh_block (i := 0) (by norm_num), hk, fun _ _ => Nat.zero_le _, fun i b _ hi hb => ?_⟩
  obtain ⟨-, -, -, hc⟩ := fresh_eq hb
  exact absurd (congrArg Cell.order hc) hi.ne

theorem leastOrder_65000 : LeastOrder 65000 9 :=
  leastOrder_succ (by unfold payloadSize startSize sizeofMetadata; norm_num)
    (by unfold payloadSize startSize sizeofMetadata; norm_num)

theorem leastOrder_32000 : LeastOrder 32000 8 :=
  leastOrder_succ (by unfold payloadSize startSize sizeofMetadata; norm_num)
    (by unfold payloadSize startSize sizeofMetadata; norm_num)

/-- Allocating one block and releasing it. -/
theorem ri_of_quiet_run_two_calls : ∃ w, Run QuietStep (start (fun _ => 0) 0 4198400)
    [.smalloc ⟨true, none⟩ 65000, .sfree 8388648] w ∧ RI w.st ∧ LiveOk w.st w.live := by
  have hi := inv_initArena (fun _ => 0) boots_example true
  have ht := takes_fresh (k := 9) (by decide)
  have hdvd : 2 ^ (9 + 1) ∣ 0 := dvd_zero _
  have hq : Quiet (splitTo (fresh maxOrder arenaUnits) 0 9 1) 1 0 9 :=
    quiet_splitTo (r := 0) hdvd (allocOnly_fresh.quiet_mark hi.repr.heap.tiles rfl ht.block)
  obtain ⟨w₁, h₁, hi₁, -, hl₁⟩ := step_smalloc (w := start (fun _ => 0) 0 4198400)
    ⟨true, none⟩ hi (by norm_num) (by unfold maxSize; norm_num) leastOrder_65000 ht
  obtain ⟨w₂, h₂, hi₂, -, hl₂⟩ := step_sfree hi₁ splitTo_self hq (by rw [hl₁]; simp)
  have hp : arenaBase 4198400 + startSize * 0 + sizeofMetadata = 8388648 := by
    rw [arenaBase_example]; rfl
  have hrun : Run QuietStep (start (fun _ => 0) 0 4198400)
      [.smalloc ⟨true, none⟩ 65000, .sfree 8388648] w₂ := by
    refine .cons ⟨h₁, trivial⟩ (.cons ⟨hp ▸ h₂, fun _ => ?_⟩ (.nil _))
    rw [← hp]
    exact (hi₁.quietFree_iff splitTo_self).mpr hq
  exact ⟨w₂, hrun, (ri_of_quiet_run _ boots_example hrun).1, (ri_of_quiet_run _ boots_example hrun).2.1⟩

/-- The layout after three allocations that leave the second and the third in the right half. -/
def threeBlocks : Layout := fun x =>
  if x = 0 then some ⟨9, false⟩ else if x = 512 then some ⟨8, false⟩
  else if x = 768 then some ⟨8, false⟩ else fresh maxOrder arenaUnits x

theorem fresh_order {x i : ℕ} {f : Bool} (h : fresh maxOrder arenaUnits x = some ⟨i, f⟩) :
    i = maxOrder := by
  obtain ⟨-, -, -, hc⟩ := fresh_eq h
  exact congrArg Cell.order hc

theorem splitTo_threeBlocks : splitTo (splitTo (splitTo (fresh maxOrder arenaUnits) 0 9 1) 512 8 1)
    768 8 0 = threeBlocks := by
  funext x
  simp only [splitTo, mark_apply, split_apply, threeBlocks, Nat.add_zero, Nat.zero_add,
    show (2 : ℕ) ^ 9 = 512 by norm_num, show 512 + 2 ^ 8 = 768 by norm_num]
  split_ifs <;> first | rfl | omega

/-- Three allocations, of orders 9, 8 and 8. -/
theorem exists_threeBlocks (m : Mem) {ck brk : ℕ} (hb : Boots ck brk) (sys : Sys) :
    ∃ w, Run Step (start m ck brk) [.smalloc sys 65000, .smalloc sys 32000, .smalloc sys 32000] w ∧
      Inv (arenaBase brk) w.st threeBlocks [] ∧
      w.live = [arenaBase brk + startSize * 768 + sizeofMetadata,
        arenaBase brk + startSize * 512 + sizeofMetadata,
        arenaBase brk + startSize * 0 + sizeofMetadata] ∧ WInv (arenaBase brk) w := by
  have h32 : (32000 : ℕ) < maxSize := by unfold maxSize; norm_num
  have ht₁ := takes_fresh (k := 9) (by decide)
  have ht₂ : Takes (splitTo (fresh maxOrder arenaUnits) 0 9 1) 8 9 512 := by
    have key : ∀ b i, splitTo (fresh maxOrder arenaUnits) 0 9 1 b = some ⟨i, true⟩ →
        (b = 512 ∧ i = 9) ∨ i = maxOrder := by
      intro b i hb
      simp only [splitTo, mark_apply, split_apply] at hb
      split_ifs at hb with h₁ h₂
      · simp at hb
      · simp only [Option.some.injEq, Cell.mk.injEq] at hb
        omega
      · exact .inr (fresh_order hb)
    refine ⟨splitTo_piece (i := 9) le_rfl (by norm_num), by norm_num, fun b hb => ?_,
      fun i b h₁ h₂ hb => ?_⟩
    · rcases key b 9 hb with ⟨rfl, -⟩ | h
      · exact le_rfl
      · exact absurd h (by decide)
    · rcases key b i hb with ⟨-, h⟩ | h
      · omega
      · unfold maxOrder at h; omega
  have ht₃ : Takes (splitTo (splitTo (fresh maxOrder arenaUnits) 0 9 1) 512 8 1) 8 8 768 := by
    refine ⟨splitTo_piece (i := 8) le_rfl (by norm_num), le_rfl, fun b hb => ?_,
      fun i b h₁ h₂ => by omega⟩
    simp only [splitTo, mark_apply, split_apply] at hb
    split_ifs at hb with h₁ h₂ h₃ h₄
    all_goals first | omega | skip
    · simp at hb
    · simp at hb
    · exact absurd (fresh_order hb) (by decide)
  obtain ⟨w₁, h₁, hi₁, -, hl₁⟩ := step_smalloc (w := start m ck brk) sys
    (inv_initArena m hb true) (by norm_num) (by unfold maxSize; norm_num) leastOrder_65000 ht₁
  obtain ⟨w₂, h₂, hi₂, -, hl₂⟩ := step_smalloc (w := w₁) sys hi₁ (by norm_num) h32
    leastOrder_32000 ht₂
  obtain ⟨w₃, h₃, hi₃, -, hl₃⟩ := step_smalloc (w := w₂) sys hi₂ (by norm_num) h32
    leastOrder_32000 ht₃
  refine ⟨w₃, .cons h₁ (.cons h₂ (.cons h₃ (.nil _))), ?_, ?_,
    (((wInv_start m hb).step h₁ trivial).step h₂ trivial).step h₃ trivial⟩
  · rw [← splitTo_threeBlocks]
    exact hi₃
  · rw [hl₃, hl₂, hl₁]
    rfl

/-- The layout after the second block has been given back. -/
theorem release_threeBlocks : release threeBlocks 2 512 8 = mark threeBlocks 512 8 true :=
  release_of_used (j := 8) rfl

theorem quiet_threeBlocks : Quiet threeBlocks 2 512 8 := quiet_of_used (j := 8) rfl

/-- The second block is given back. -/
theorem exists_secondFree {base : ℕ} {w₃ : World} (hi₃ : Inv base w₃.st threeBlocks [])
    (hl₃ : w₃.live = [base + startSize * 768 + sizeofMetadata,
      base + startSize * 512 + sizeofMetadata, base + startSize * 0 + sizeofMetadata]) :
    ∃ w₄, QuietStep w₃ (.sfree (base + startSize * 512 + sizeofMetadata)) w₄ ∧
      Inv base w₄.st (mark threeBlocks 512 8 true) [] ∧
      w₄.live = [base + startSize * 768 + sizeofMetadata, base + startSize * 0 + sizeofMetadata] := by
  have h512 : threeBlocks 512 = some ⟨8, false⟩ := rfl
  obtain ⟨w₄, h₄, hi₄, -, hl₄⟩ := step_sfree hi₃ h512 quiet_threeBlocks (by rw [hl₃]; simp)
  rw [show maxOrder - 8 = 2 from rfl, release_threeBlocks] at hi₄
  refine ⟨w₄, ⟨h₄, fun _ => (hi₃.quietFree_iff h512).mpr quiet_threeBlocks⟩, hi₄, ?_⟩
  rw [hl₄, hl₃]
  simp [startSize]

/-- **The second block is released, then the first**: its buddy region starts with a free block of
order 8 and goes on with the third block, which is in use. -/
theorem exists_swallowed {base : ℕ} {w₃ : World} (hi₃ : Inv base w₃.st threeBlocks [])
    (hl₃ : w₃.live = [base + startSize * 768 + sizeofMetadata,
      base + startSize * 512 + sizeofMetadata, base + startSize * 0 + sizeofMetadata]) :
    ∃ w t f, Run Step w₃ [.sfree (base + startSize * 512 + sizeofMetadata),
        .sfree (base + startSize * 0 + sizeofMetadata)] w ∧
      Inv base t (mark threeBlocks 512 8 true) [] ∧
      w = ⟨{ t with mem := w.st.mem, freed := f }, [base + startSize * 768 + sizeofMetadata]⟩ ∧
      slots base w.st.mem = prevAt (Function.update (slots base t.mem) 0
        (mergedHdr (slots base t.mem 0) 9 (base + startSize * 768))) 768 (base + startSize * 0) ∧
      base + startSize * 0 ∈ f 10 := by
  obtain ⟨w₄, ⟨h₄, -⟩, hi₄, hl₄⟩ := exists_secondFree hi₃ hl₃
  obtain ⟨m, f, he, hm, hf⟩ := free_meets_smaller (a := 0) (k := 9) (j := 8) hi₄ rfl
    (dvd_zero _) (by norm_num) (by decide) rfl (d := ⟨10, true⟩) (fresh_block (i := 1) (by norm_num))
    (fun _ => rfl) (Nat.lt_succ_self 1)
  have hstep : Step w₄ (.sfree (base + startSize * 0 + sizeofMetadata))
      ⟨{ w₄.st with mem := m, freed := f }, w₄.live.erase
        (base + startSize * 0 + sizeofMetadata)⟩ := by
    refine ⟨.inr (by rw [hl₄]; simp), settles_call.returns (n := 2) ?_⟩
    rw [call, sfree, he, Outcome.ret_bind]
  refine ⟨_, w₄.st, f, .cons h₄ (.cons hstep (.nil _)), hi₄, ?_, hm, hf⟩
  rw [hl₄]
  simp [startSize]

/-- **A run after which the representation invariant does not hold**: allocate blocks of orders 9, 8
and 8, release the second and then the first. -/
theorem ri_breaks : ∃ w, Run Step (start (fun _ => 0) 0 4198400)
    [.smalloc ⟨true, none⟩ 65000, .smalloc ⟨true, none⟩ 32000, .smalloc ⟨true, none⟩ 32000,
      .sfree 8454184, .sfree 8388648] w ∧ ¬ RI w.st := by
  obtain ⟨w₃, hrun₃, hi₃, hl₃, -⟩ := exists_threeBlocks (fun _ => 0) boots_example ⟨true, none⟩
  obtain ⟨w, t, f, hrun, hi, hw, hs, hf⟩ := exists_swallowed hi₃ hl₃
  have hp₁ : arenaBase 4198400 + startSize * 0 + sizeofMetadata = 8388648 := by
    rw [arenaBase_example]; rfl
  have hp₂ : arenaBase 4198400 + startSize * 512 + sizeofMetadata = 8454184 := by
    rw [arenaBase_example]; rfl
  rw [hp₁, hp₂] at hrun
  refine ⟨w, hrun₃.append hrun, ?_⟩
  rw [hw]
  refine not_ri_of_next (a := 0) (k := 10) (c := 768) le_rfl ?_ ?_ hi.arena.pos (by norm_num) hf
  · rw [hs, prevAt_of_ne (by norm_num), Function.update_self]; rfl
  · rw [hs, prevAt_of_ne (by norm_num), Function.update_self]; rfl

end OsHomework.Malloc3
