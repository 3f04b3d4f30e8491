import Mathlib.Algebra.BigOperators.Group.Finset.Piecewise
import Mathlib.Algebra.Order.BigOperators.Group.List
import Mathlib.Data.Finset.Card
import Mathlib.Order.Interval.Finset.Nat
import OsHomework.Malloc3.Restore

/-!
# `malloc_3`: the statistics

The statistics walk through the list of blocks and the list of mapped blocks; `freed[]` they do not look
at. The bytes of the arena come from the addresses of its first and its last header.

* `sum_length_le`: regions that do not overlap have room side by side;
* `sum_filter_eq`: what is summed up over all blocks can be summed up order by order;
* `StatsAgree s l L`: what the statistics should be, and **`statistics_agree`**.
-/

set_option autoImplicit false

namespace OsHomework.Malloc3

open Buddy

/-! ## Regions side by side -/

/-- The bytes of a list of regions. -/
def region (R : List (ℕ × ℕ)) : Finset ℕ :=
  R.foldr (fun r u => Finset.Ico r.1 (r.1 + r.2) ∪ u) ∅

theorem mem_region {R : List (ℕ × ℕ)} {x : ℕ} : x ∈ region R ↔ ∃ r ∈ R, r.1 ≤ x ∧ x < r.1 + r.2 := by
  induction R with
  | nil => simp [region]
  | cons r R ih =>
    rw [region, List.foldr_cons, Finset.mem_union, Finset.mem_Ico]
    simp only [List.mem_cons, exists_eq_or_imp]
    exact or_congr Iff.rfl ih

/-- **Regions below `N` that do not overlap have at most `N` bytes together.** -/
theorem sum_length_le {R : List (ℕ × ℕ)} {N : ℕ} (hN : ∀ r ∈ R, r.1 + r.2 ≤ N)
    (hR : R.Pairwise fun r r' => r.1 + r.2 ≤ r'.1 ∨ r'.1 + r'.2 ≤ r.1) : (R.map Prod.snd).sum ≤ N := by
  have hcard : (region R).card = (R.map Prod.snd).sum := by
    induction R with
    | nil => rfl
    | cons r R ih =>
      obtain ⟨hr, hR⟩ := List.pairwise_cons.mp hR
      have hdisj : Disjoint (Finset.Ico r.1 (r.1 + r.2)) (region R) := by
        rw [Finset.disjoint_left]
        intro x hx hxR
        obtain ⟨h₁, h₂⟩ := Finset.mem_Ico.mp hx
        obtain ⟨r', hr', h₃, h₄⟩ := mem_region.mp hxR
        have := hr r' hr'
        omega
      have hunion : region (r :: R) = Finset.Ico r.1 (r.1 + r.2) ∪ region R := rfl
      rw [hunion, Finset.card_union_of_disjoint hdisj, Nat.card_Ico, List.map_cons, List.sum_cons,
        ih (fun r' h => hN r' (List.mem_cons_of_mem _ h)) hR, Nat.add_sub_cancel_left]
  have hsub : region R ⊆ Finset.range N := by
    intro x hx
    obtain ⟨r, hr, -, hlt⟩ := mem_region.mp hx
    exact Finset.mem_range.mpr (hlt.trans_le (hN r hr))
  have hle := Finset.card_le_card hsub
  rwa [hcard, Finset.card_range] at hle

/-! ## Sums over the free lists -/

/-- **A sum over the elements that pass a test, class by class.** -/
theorem sum_filter_eq {α : Type} (l : List α) (p : α → Bool) (f cls : α → ℕ) (N : ℕ)
    (hN : ∀ a ∈ l, p a = true → cls a < N) :
    ∑ k ∈ Finset.range N, ((l.filter fun a => p a ∧ cls a = k).map f).sum = ((l.filter p).map f).sum := by
  induction l with
  | nil => simp
  | cons a l ih =>
    have ih := ih fun b hb => hN b (List.mem_cons_of_mem _ hb)
    by_cases hp : p a = true
    · have hterm : ∀ k, (((a :: l).filter fun b => p b ∧ cls b = k).map f).sum =
          (if cls a = k then f a else 0) + ((l.filter fun b => p b ∧ cls b = k).map f).sum := by
        intro k
        rw [List.filter_cons]
        by_cases hk : cls a = k <;> simp [hp, hk]
      have hmem : cls a ∈ Finset.range N := Finset.mem_range.mpr (hN a List.mem_cons_self hp)
      rw [Finset.sum_congr rfl fun k _ => hterm k, Finset.sum_add_distrib, Finset.sum_ite_eq, if_pos hmem,
        ih, List.filter_cons_of_pos hp, List.map_cons, List.sum_cons]
    · have hterm : ∀ k, ((a :: l).filter fun b => p b ∧ cls b = k) =
          l.filter fun b => p b ∧ cls b = k := by
        intro k
        rw [List.filter_cons_of_neg]
        simp [hp]
      rw [Finset.sum_congr rfl fun k _ => by rw [hterm k], ih, List.filter_cons_of_neg hp]

/-! ## What the loops come to -/

theorem sum_map_add_const {α : Type} (l : List α) (f : α → ℕ) (c : ℕ) :
    (l.map fun a => f a + c).sum = (l.map f).sum + l.length * c := by
  induction l with
  | nil => simp
  | cons a l ih =>
    rw [List.map_cons, List.sum_cons, ih, List.map_cons, List.sum_cons, List.length_cons, Nat.succ_mul]
    omega

/-- The sum of the sizes of blocks. -/
def sizes (m : Mem) (l : List ℕ) : ℕ := (l.map fun a => (hdr m a).size).sum

section Blocks

variable {s : State} {l : List ℕ} {L : List (ℕ × ℕ)}

theorem RIList.size_add (h : RIList s l) {a : ℕ} (ha : a ∈ l) :
    (hdr s.mem a).size + sizeofMetadata = blockLen s.mem a := by
  have hpos := Nat.two_pow_pos (hdr s.mem a).order.toNat
  rw [(h.blocks a ha).size, blockLen]
  unfold startSize sizeofMetadata
  omega

theorem RIList.ne_nil (h : RIList s l) : l ≠ [] := List.ne_nil_of_mem h.head_mem

theorem RIList.sum_sizes (h : RIList s l) : sizes s.mem l + l.length * sizeofMetadata = 32 * maxSize := by
  have hsum := h.list.sum_len h.ne_nil
  have hmap : l.map (blockLen s.mem) = l.map fun a => (hdr s.mem a).size + sizeofMetadata :=
    List.map_congr_left fun a ha => (h.size_add ha).symm
  rw [hmap, sum_map_add_const] at hsum
  exact Nat.add_left_cancel hsum

theorem RIList.length_le (h : RIList s l) : l.length * sizeofMetadata ≤ 32 * maxSize := by
  have := h.sum_sizes
  omega

/-- **There is room for the arena and all mapped blocks in the address space.** -/
theorem Maps.sum_sizes {ck head base : ℕ} {m : Mem} (h : Maps base ck m head L) (hA : Arena base) :
    32 * maxSize + (L.map fun r => r.2 + sizeofMetadata).sum < 2 ^ 64 := by
  have hend := arena_end base
  have hfits := hA.fits
  have hle := sum_length_le (N := 2 ^ 64 - 1)
    (R := (base, 32 * maxSize) :: L.map fun r => (r.1, r.2 + sizeofMetadata)) ?_ ?_
  · rw [List.map_cons, List.sum_cons, List.map_map] at hle
    have hsum : 32 * maxSize + (L.map fun r => r.2 + sizeofMetadata).sum ≤ 2 ^ 64 - 1 := hle
    omega
  · intro r hr
    rcases List.mem_cons.mp hr with rfl | hr
    · dsimp only
      omega
    · obtain ⟨q, hq, rfl⟩ := List.mem_map.mp hr
      have := (h.fresh hq).fits
      dsimp only
      omega
  · refine List.pairwise_cons.mpr ⟨fun r hr => ?_, List.pairwise_map.mpr (h.apart.imp fun hap => ?_)⟩
    · obtain ⟨q, hq, rfl⟩ := List.mem_map.mp hr
      have := (h.fresh hq).arena
      dsimp only
      omega
    · unfold Apart at hap
      dsimp only
      omega

theorem Maps.sizes_eq {ck head base : ℕ} {m : Mem} (h : Maps base ck m head L) :
    sizes m (L.map Prod.fst) = (L.map Prod.snd).sum := by
  rw [sizes, List.map_map]
  exact congrArg List.sum (List.map_congr_left fun r hr => (h.hdrs hr).size)

theorem sum_add_metadata (R : List (ℕ × ℕ)) : (R.map fun r => r.2 + sizeofMetadata).sum =
    (R.map Prod.snd).sum + R.length * sizeofMetadata := sum_map_add_const R Prod.snd sizeofMetadata

theorem RIList.freed_perm (h : RIList s l) {k : ℕ} (hk : k ≤ maxOrder) : (s.freed k).Perm
    (l.filter fun a => (hdr s.mem a).isFree ∧ (hdr s.mem a).order.toNat = k) := by
  have hnd : l.Nodup := h.list.sorted.imp ne_of_lt
  refine (List.perm_ext_iff_of_nodup ((h.sorted k hk).imp ne_of_lt) (hnd.filter _)).mpr fun a => ?_
  rw [h.freed k hk, List.mem_filter, decide_eq_true_eq]
  refine and_congr_right fun ha => and_congr_right fun _ => ?_
  have := (h.blocks a ha).order_nonneg
  omega

/-- **The entries of the free lists are the free blocks.** -/
theorem RIList.sum_freed (h : RIList s l) (f : ℕ → ℕ) :
    ∑ k ∈ Finset.range (maxOrder + 1), ((s.freed k).map f).sum =
      ((l.filter fun a => (hdr s.mem a).isFree).map f).sum := by
  rw [← sum_filter_eq l (fun a => (hdr s.mem a).isFree) f (fun a => (hdr s.mem a).order.toNat)
    (maxOrder + 1) fun a ha _ => by
      have := (h.blocks a ha).order_le
      have := (h.blocks a ha).order_nonneg
      omega]
  refine Finset.sum_congr rfl fun k hk => ?_
  exact ((h.freed_perm (Nat.le_of_lt_succ (Finset.mem_range.mp hk))).map f).sum_eq

theorem RIList.numFreeBlocks (h : RIList s l) : Returns (fun n => numFreeBlocks n s)
    (l.filter fun a => (hdr s.mem a).isFree).length := by
  have hle := List.length_filter_le (fun a => (hdr s.mem a).isFree) l
  have hlen := h.length_le
  refine ⟨l.length + 1, fun n hn => ?_⟩
  show Malloc3.numFreeBlocks n s = _
  rw [Malloc3.numFreeBlocks, getNumberOfFreeBlocks, forEach, walk_spec h.list.linked hn,
    foldlM_count_if (by unfold maxSize sizeofMetadata at hlen; omega), zero_add]

theorem RIList.numFreeBytes (h : RIList s l) : Returns (fun n => numFreeBytes n s)
    (sizes s.mem (l.filter fun a => (hdr s.mem a).isFree)) := by
  have hle : sizes s.mem (l.filter fun a => (hdr s.mem a).isFree) ≤ sizes s.mem l :=
    (List.filter_sublist.map _).sum_le_sum fun _ _ => Nat.zero_le _
  have hsum := h.sum_sizes
  refine ⟨l.length + 1, fun n hn => ?_⟩
  show Malloc3.numFreeBytes n s = _
  rw [Malloc3.numFreeBytes, getNumberOfFreeBytes, forEach, walk_spec h.list.linked hn]
  unfold maxSize at hsum
  rw [sizes] at hle ⊢
  rw [foldlM_add_if (by omega), zero_add]

theorem RIList.numAllocatedBlocks (h : RIList s l) (hm : Maps s.head s.cookie s.mem s.mmapHead L) :
    Returns (fun n => numAllocatedBlocks n s) (l.length + L.length) := by
  have hlen := h.length_le
  have hroom := hm.sum_sizes h.arena
  rw [sum_add_metadata] at hroom
  unfold maxSize sizeofMetadata at hlen hroom
  refine ⟨l.length + L.length + 1, fun n hn => ?_⟩
  show Malloc3.numAllocatedBlocks n s = _
  have hL : (L.map Prod.fst).length = L.length := List.length_map _
  rw [Malloc3.numAllocatedBlocks, getNumberOfAllocatedBlocks, forEach, walk_spec h.list.linked (by omega),
    foldlM_count (by omega), Outcome.ret_bind, forEach, walk_spec hm.linked (by omega),
    foldlM_count (by omega), hL, zero_add]

theorem RIList.numMetaDataBytes (h : RIList s l) (hm : Maps s.head s.cookie s.mem s.mmapHead L) :
    Returns (fun n => numMetaDataBytes n s) ((l.length + L.length) * sizeofMetadata) := by
  have hlen := h.length_le
  have hroom := hm.sum_sizes h.arena
  rw [sum_add_metadata] at hroom
  have hmod : (l.length + L.length) * sizeofMetadata % 2 ^ 64 = (l.length + L.length) * sizeofMetadata := by
    apply Nat.mod_eq_of_lt
    rw [Nat.add_mul]
    omega
  obtain ⟨N, hN⟩ := h.numAllocatedBlocks hm
  refine ⟨N, fun n hn => ?_⟩
  show Malloc3.numMetaDataBytes n s = _
  have hblocks : getNumberOfAllocatedBlocks n s = _ := hN n hn
  rw [Malloc3.numMetaDataBytes, hblocks, Outcome.ret_bind, hmod]

/-- **The distance from the first header to the end of the last block**, less the headers, is the sum of the
sizes. -/
theorem RIList.numAllocatedBytes (h : RIList s l) (hm : Maps s.head s.cookie s.mem s.mmapHead L) :
    Returns (fun n => numAllocatedBytes n s) (sizes s.mem l + sizes s.mem (L.map Prod.fst)) := by
  have hlen := h.length_le
  have hsum := h.sum_sizes
  have hroom := hm.sum_sizes h.arena
  have hsizes := hm.sizes_eq
  rw [sum_add_metadata] at hroom
  have hpos := h.arena.pos
  have hfits := h.arena.fits
  rw [← arena_end] at hfits
  refine ⟨l.length + L.length + 1, fun n hn => ?_⟩
  show Malloc3.numAllocatedBytes n s = _
  have hL : (L.map Prod.fst).length = L.length := List.length_map _
  obtain ⟨l', z, hz⟩ := List.eq_nil_or_concat' l |>.resolve_left h.ne_nil
  have hzl : z ∈ l := by rw [hz]; simp
  have hlast : z + blockLen s.mem z = s.head + 32 * maxSize := h.list.last z (by rw [hz]; simp)
  have hle : s.head ≤ z := h.list.head_le z hzl
  have hzsize := h.size_add hzl
  have hget : l.getLastD s.head = z := by rw [hz]; simp
  have harena : subSize ((subSize z s.head + (hdr s.mem z).size) % 2 ^ 64)
      (sizeofMetadata * (l.length - 1)) = sizes s.mem l := by
    have hone : 1 ≤ l.length := List.length_pos_of_mem hzl
    unfold sizeofMetadata maxSize at *
    rw [subSize_of_le hle (by omega), Nat.mod_eq_of_lt (by omega), subSize_of_le (by omega) (by omega)]
    omega
  have hint : l.length ≤ intMax := by
    unfold intMax
    unfold maxSize sizeofMetadata at hlen
    omega
  rw [Malloc3.numAllocatedBytes, getNumberOfAllocatedBytes, if_neg (by omega), forEach,
    walk_spec h.list.linked (by omega), foldlM_count_int (Nat.zero_le _), zero_add, if_pos hint,
    Outcome.ret_bind]
  dsimp only
  rw [hget, harena, forEach, walk_spec hm.linked (by omega), foldlM_add]
  · rfl
  · show sizes s.mem l + sizes s.mem (L.map Prod.fst) < 2 ^ 64
    omega

end Blocks

/-- **What the statistics should be**, with `l` the blocks of the arena and `L` the mapped ones: the bytes
are those of the blocks of both lists; with the metadata they are the arena and the mapped regions; and the
free blocks, found by walking through `l`, are the entries of `freed[0..10]`. -/
def StatsAgree (s : State) (l : List ℕ) (L : List (ℕ × ℕ)) : Prop :=
  ∃ bytes metaData freeBlocks freeBytes,
    Returns (fun n => numAllocatedBytes n s) bytes ∧ Returns (fun n => numMetaDataBytes n s) metaData ∧
    Returns (fun n => numFreeBlocks n s) freeBlocks ∧ Returns (fun n => numFreeBytes n s) freeBytes ∧
    bytes = sizes s.mem l + sizes s.mem (L.map Prod.fst) ∧
    bytes + metaData = 32 * maxSize + (L.map fun r => (hdr s.mem r.1).size + sizeofMetadata).sum ∧
    freeBlocks = ∑ k ∈ Finset.range (maxOrder + 1), (s.freed k).length ∧
    freeBytes = ∑ k ∈ Finset.range (maxOrder + 1), sizes s.mem (s.freed k)

/-- **The statistics agree with the lists**, in every state that satisfies the representation invariant and
for every list of mapped blocks. -/
theorem statistics_agree {s : State} {l : List ℕ} {L : List (ℕ × ℕ)} (h : RIList s l)
    (hm : Maps s.head s.cookie s.mem s.mmapHead L) : StatsAgree s l L := by
  refine ⟨_, _, _, _, h.numAllocatedBytes hm, h.numMetaDataBytes hm, h.numFreeBlocks, h.numFreeBytes, rfl,
    ?_, ?_, (h.sum_freed _).symm⟩
  · have hsum := h.sum_sizes
    have hL : (L.map fun r => (hdr s.mem r.1).size + sizeofMetadata).sum =
        (L.map fun r => r.2 + sizeofMetadata).sum :=
      congrArg List.sum (List.map_congr_left fun r hr => by rw [(hm.hdrs hr).size])
    rw [hL, sum_add_metadata, hm.sizes_eq, Nat.add_mul]
    omega
  · have hone := h.sum_freed fun _ => 1
    simpa [List.map_const'] using hone.symm

/-- One block of the arena and one mapped block are in use. -/
theorem statistics_agree_two_blocks : ∃ w l, Run Step (start (fun _ => 0) 0 4198400)
      [.smalloc ⟨true, none⟩ 65000, .smalloc ⟨true, some 1073741824⟩ 200000] w ∧
    RIList w.st l ∧ StatsAgree w.st l [(1073741824, 200000)] := by
  obtain ⟨w, hrun, hi, -, -⟩ := exists_blockAndMap
  obtain ⟨l, hl, -⟩ := hi.repr.riList hi.arena hi.head
  have hmaps := hi.maps
  rw [← hi.head] at hmaps
  exact ⟨w, l, hrun, hl, statistics_agree hl hmaps⟩

end OsHomework.Malloc3
