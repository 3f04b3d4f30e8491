import OsHomework.Malloc3.Fuel
import OsHomework.Malloc3.Maps
import OsHomework.Malloc3.Ops

/-!
# `malloc_3`: what the calls do

The allocator as a whole is described by two abstract components: the layout of the arena and the
list of mapped blocks. `Inv` ties the state of the code to them, and the calls are computed on them.

* `Inv base s B L`, and `Inv.of_mem`: it reads nothing but headers;
* **`malloc_heap`**, `malloc_null`, **`malloc_map`**, **`free_heap`**, **`free_map`**;
* `AllocTo`: the three ways a call to `malloc` can end, and **`malloc_spec`**.
-/

set_option autoImplicit false

namespace OsHomework.Malloc3

open Buddy

/-- **The state `s` represents** the layout `B` of the arena and the mapped blocks `L`. -/
structure Inv (base : ℕ) (s : State) (B : Layout) (L : List (ℕ × ℕ)) : Prop where
  arena : Arena base
  head : s.head = base
  repr : Repr base s B none
  maps : Maps base s.cookie s.mem s.mmapHead L

section Frames

variable {base : ℕ} {s : State} {B : Layout} {L : List (ℕ × ℕ)}

theorem Outside.out {m m' : Mem} {M : ℕ} (h : Outside base B m m') (ht : Tiles M arenaUnits B) {x : ℕ}
    (hx : x < base ∨ base + startSize * arenaUnits ≤ x) : m' x = m x := by
  apply h x
  intro u c hu
  have := ht.lt hu
  unfold startSize at *
  omega

theorem Maps.of_outside {ck head M : ℕ} {m m' : Mem} {B' : Layout} (h : Maps base ck m head L)
    (ho : Outside base B' m m') (ht : Tiles M arenaUnits B') : Maps base ck m' head L := by
  refine h.congr_out fun x ⟨r, hr, h₁, h₂⟩ => ho.out ht ?_
  have := (h.fresh hr).arena
  unfold sizeofMetadata at this
  omega

theorem Heap.congr {ck : ℕ} {H H' : ℕ → MallocMetadata} {x : Option ℕ} (h : Heap base ck H B x)
    (hH : ∀ {u c}, B u = some c → H' u = H u) : Heap base ck H' B x := by
  refine ⟨h.tiles, fun hu => ?_, ?_, fun hu hlt => ?_, fun hu hx => ?_⟩
  · rw [hH hu]; exact h.hdrs hu
  · rw [hH h.tiles.first.choose_spec]; exact h.headPrev
  · rw [hH (h.tiles.next hu hlt).choose_spec]; exact h.prevs hu hlt
  · rw [hH hu]; exact h.marks hu hx

/-- **Bytes that belong to no header may change.** -/
theorem Inv.of_mem {m : Mem} (h : Inv base s B L)
    (hB : ∀ {u c x}, B u = some c → base + startSize * u ≤ x → x < base + startSize * u + 40 →
      m x = s.mem x)
    (hL : ∀ {r x}, r ∈ L → r.1 ≤ x → x < r.1 + 40 → m x = s.mem x) :
    Inv base { s with mem := m } B L :=
  ⟨h.arena, h.head, ⟨h.repr.heap.congr fun hu => slots_congr fun _ h₁ h₂ => hB hu h₁ h₂,
    h.repr.lists, h.repr.cookie⟩, h.maps.congr_out fun _ ⟨_, hr, h₁, h₂⟩ => hL hr h₁ h₂⟩

theorem Inv.head_ne (h : Inv base s B L) : s.head ≠ 0 := by
  rw [h.head]; exact h.arena.pos.ne'

theorem headerOf_add {a : ℕ} (ha : a < 2 ^ 64) : headerOf (a + sizeofMetadata) = a := by
  unfold headerOf subSize; omega

theorem Inv.slot_lt (h : Inv base s B L) {a : ℕ} {c : Cell} (ha : B a = some c) :
    base + startSize * a < 2 ^ 64 := by
  have := h.arena.fits
  have := h.repr.heap.tiles.lt ha
  unfold startSize at *
  omega

end Frames

/-! ## Allocation -/

section Malloc

variable {base : ℕ} {s : State} {B : Layout} {L : List (ℕ × ℕ)} {fuel size : ℕ} (sys : Sys)

theorem malloc_invalid (h : Inv base s B L) (hs : size = 0 ∨ maxSizeToAllocate < size) :
    malloc sys fuel s size = .ret (s, 0) := by
  rw [malloc, if_neg h.head_ne]
  simp only [if_pos hs]

/-- **A small request** is served from the block that `Takes` names, cut down to size. The mapped blocks
play no part. -/
theorem malloc_takes {k j a : ℕ} (hA : Arena base) (hh : s.head = base) (h : Repr base s B none)
    (h0 : 0 < size) (hmax : size < maxSize) (hk : LeastOrder size k) (ht : Takes B k j a)
    (hfuel : maxOrder < fuel) :
    ∃ m f, malloc sys fuel s size =
        .ret ({ s with mem := m, freed := f }, base + startSize * a + sizeofMetadata) ∧
      Repr base { s with mem := m, freed := f } (splitTo B a k (j - k)) none ∧
      Outside base (splitTo B a k (j - k)) s.mem m := by
  have hj : j ≤ maxOrder := h.heap.tiles.le_max ht.block
  have hne : s.head ≠ 0 := by
    have := hA.pos
    omega
  rcases getFreeBlock_spec hk h with ⟨-, hno⟩ | ⟨j', a', f, ht', he, hr⟩
  · exact absurd ht.block (hno j a ht.le)
  · obtain ⟨rfl, rfl⟩ := ht.unique ht'
    have hn : k + (j' - k) = j' := Nat.add_sub_cancel' ht.le
    obtain ⟨m, f', he', hr', ho⟩ := splitIfPossible_spec (n := j' - k) hA hk
      (show j' - k < fuel by omega) hr (by rw [mark_apply, if_pos rfl, hn])
    rw [splitTo_mark] at hr' ho
    refine ⟨m, f', ?_, hr', ho⟩
    rw [malloc, if_neg hne]
    simp only
    rw [if_neg (by unfold maxSizeToAllocate maxSize at *; omega), if_neg (by omega), he]
    simp only [he', Outcome.ret_bind]

theorem malloc_heap {k j a : ℕ} (h : Inv base s B L) (h0 : 0 < size) (hmax : size < maxSize)
    (hk : LeastOrder size k) (ht : Takes B k j a) (hfuel : maxOrder < fuel) :
    ∃ m f, malloc sys fuel s size =
        .ret ({ s with mem := m, freed := f }, base + startSize * a + sizeofMetadata) ∧
      Inv base { s with mem := m, freed := f } (splitTo B a k (j - k)) L ∧
      Outside base (splitTo B a k (j - k)) s.mem m := by
  obtain ⟨m, f, he, hr, ho⟩ := malloc_takes sys h.arena h.head h.repr h0 hmax hk ht hfuel
  exact ⟨m, f, he, ⟨h.arena, h.head, hr, h.maps.of_outside ho hr.heap.tiles⟩, ho⟩

/-- No block is large enough. -/
theorem malloc_none (hh : s.head ≠ 0) (h : Lists base s.freed B) (h0 : 0 < size) (hmax : size < maxSize)
    (hno : ∀ j a, size ≤ payloadSize j → B a ≠ some ⟨j, true⟩) :
    malloc sys fuel s size = .ret (s, 0) := by
  have he : getFreeBlock s size = none := by
    rcases getFreeBlockFrom_cases s size (List.range (maxOrder + 1)) with
      ⟨he, -⟩ | ⟨l₁, j, l₂, p, rest, hl, -, hf, hfit, -⟩
    · exact he
    · have hM : j ∈ List.range (maxOrder + 1) := by rw [hl]; simp
      obtain ⟨a, -, ha, -⟩ := h.pop (Nat.le_of_lt_succ (List.mem_range.mp hM)) hf
      exact absurd ha (hno j a hfit)
  rw [malloc, if_neg hh]
  simp only
  rw [if_neg (by unfold maxSizeToAllocate maxSize at *; omega), if_neg (by omega), he]

theorem malloc_null (h : Inv base s B L) (h0 : 0 < size) (hmax : size < maxSize)
    (hno : ∀ j a, size ≤ payloadSize j → B a ≠ some ⟨j, true⟩) :
    malloc sys fuel s size = .ret (s, 0) :=
  malloc_none sys h.head_ne h.repr.lists h0 hmax hno

/-- A large request is mapped and linked in at the end, whatever the arena looks like. -/
theorem Maps.malloc_large {addr : ℕ} (h : Maps base s.cookie s.mem s.mmapHead L) (hck : s.cookie < 2 ^ 32)
    (hh : s.head ≠ 0) (hmin : maxSize ≤ size) (hmax : size ≤ maxSizeToAllocate)
    (hsys : sys.mmapAddr = some addr) (hf : Fresh base L addr size) (hfuel : L.length < fuel) :
    ∃ m p, malloc sys fuel s size =
        .ret ({ s with mem := m, mmapHead := p }, addr + sizeofMetadata) ∧
      Maps base s.cookie m p (L ++ [(addr, size)]) ∧
      OnMaps (L ++ [(addr, size)]) (s.mem.fill addr (sizeofMetadata + size) 0) m ∧
      (hdr m addr).prev = (L.map Prod.fst).getLastD 0 ∧
      (∀ r ∈ L, ∃ v, hdr m r.1 = { hdr s.mem r.1 with next := v }) ∧
      ((∀ r ∈ L ++ [(addr, size)], startSize ∣ r.1) →
        SameMarks (s.mem.fill addr (sizeofMetadata + size) 0) m) := by
  have hout : ∀ r ∈ L, ∀ x, r.1 ≤ x → x < r.1 + 40 → s.mem.fill addr (sizeofMetadata + size) 0 x = s.mem x := by
    intro r hr x h₁ h₂
    apply Mem.fill_out
    have := hf.apart r hr
    unfold Apart sizeofMetadata at *
    simp only at this
    omega
  have hfill := h.congr_out fun x ⟨r, hr, h₁, h₂⟩ => hout r hr x h₁ h₂
  obtain ⟨m, p, he, hm, ho, hp, hps, hmarks⟩ :=
    linkMmap_spec (s := { s with mem := s.mem.fill addr (sizeofMetadata + size) 0 }) hck hfill hf hfuel
  refine ⟨m, p, ?_, hm, ho, hp, fun r hr => ?_, hmarks⟩
  · rw [malloc, if_neg hh]
    simp only
    rw [if_neg (by unfold maxSize at hmin; omega), if_pos hmin, hsys]
    simp only [he, Outcome.ret_bind]
  · obtain ⟨v, hv⟩ := hps r hr
    exact ⟨v, by rw [hv, hdr_congr fun x h₁ h₂ => hout r hr x h₁ h₂]⟩

theorem Inv.of_onMaps {B' : Layout} {L' : List (ℕ × ℕ)} {m : Mem} (h : Inv base s B' L')
    (hL : ∀ r ∈ L, Fresh base [] r.1 r.2) (ho : OnMaps L s.mem m) : Repr base { s with mem := m } B' none := by
  refine ⟨h.repr.heap.congr fun {u c} hu => slots_congr fun x h₁ h₂ => ho x fun r hr => ?_, h.repr.lists,
    h.repr.cookie⟩
  have := h.repr.heap.tiles.lt hu
  have := (hL r hr).arena
  unfold startSize sizeofMetadata at *
  omega

/-- **A large request** is mapped and linked in at the end. -/
theorem malloc_map {addr : ℕ} (h : Inv base s B L) (hmin : maxSize ≤ size)
    (hmax : size ≤ maxSizeToAllocate) (hsys : sys.mmapAddr = some addr)
    (hf : Fresh base L addr size) (hfuel : L.length < fuel) :
    ∃ m p, malloc sys fuel s size =
        .ret ({ s with mem := m, mmapHead := p }, addr + sizeofMetadata) ∧
      Inv base { s with mem := m, mmapHead := p } B (L ++ [(addr, size)]) ∧
      OnMaps (L ++ [(addr, size)]) (s.mem.fill addr (sizeofMetadata + size) 0) m := by
  have hfill : Inv base { s with mem := s.mem.fill addr (sizeofMetadata + size) 0 } B L := by
    refine h.of_mem (fun {u c x} hu h₁ h₂ => Mem.fill_out ?_) (fun {r x} hr h₁ h₂ => Mem.fill_out ?_)
    · have := h.repr.heap.tiles.lt hu
      have := hf.arena
      unfold startSize at *
      omega
    · have := hf.apart r hr
      unfold Apart sizeofMetadata at *
      simp only at this
      omega
  obtain ⟨m, p, he, hm, ho, -⟩ := h.maps.malloc_large sys h.repr.cookie h.head_ne hmin hmax hsys hf hfuel
  have hrepr := hfill.of_onMaps (fun r hr => hm.fresh hr) ho
  exact ⟨m, p, he, ⟨h.arena, h.head, ⟨hrepr.heap, hrepr.lists, hrepr.cookie⟩, hm⟩, ho⟩

/-- The answer of `mmap` to a request of `size` bytes is a fresh region. -/
def FreshAnswer (base : ℕ) (L : List (ℕ × ℕ)) (sys : Sys) (size : ℕ) : Prop :=
  ∀ addr, sys.mmapAddr = some addr → Fresh base L addr size

/-- How a call to `malloc` ends: the new layout, the new mapped blocks, and the pointer. -/
inductive AllocTo (base : ℕ) (B : Layout) (L : List (ℕ × ℕ)) (sys : Sys) (size : ℕ) :
    Layout → List (ℕ × ℕ) → ℕ → Prop
  | null : AllocTo base B L sys size B L 0
  | heap {k j a : ℕ} : LeastOrder size k → Takes B k j a →
      AllocTo base B L sys size (splitTo B a k (j - k)) L (base + startSize * a + sizeofMetadata)
  | map {addr : ℕ} : maxSize ≤ size → Fresh base L addr size →
      AllocTo base B L sys size B (L ++ [(addr, size)]) (addr + sizeofMetadata)

/-- Outside the headers of `B` and `L`, bytes are kept or cleared. -/
def KeptOrCleared (base : ℕ) (B : Layout) (L : List (ℕ × ℕ)) (m m' : Mem) : Prop :=
  ∀ x, (∀ u c, B u = some c → x < base + startSize * u ∨ base + startSize * u + 40 ≤ x) →
    (∀ r ∈ L, x < r.1 ∨ r.1 + 40 ≤ x) → m' x = m x ∨ m' x = 0

/-- **Every call to `malloc` returns**, and in one of three ways. Outside the headers it changes only the
payload of the block returned, and if it returns `NULL` it changes nothing. -/
theorem malloc_cases (h : Inv base s B L) (hf : maxSize ≤ size → FreshAnswer base L sys size)
    (hfuel : maxOrder + L.length < fuel) :
    ∃ s' B' L' p, malloc sys fuel s size = .ret (s', p) ∧ Inv base s' B' L' ∧
      s'.cookie = s.cookie ∧ AllocTo base B L sys size B' L' p ∧ (p = 0 → s' = s) ∧
      (∀ x, (∀ u c, B' u = some c → x < base + startSize * u ∨ base + startSize * u + 40 ≤ x) →
        (∀ r ∈ L', x < r.1 ∨ r.1 + 40 ≤ x) →
          s'.mem x = s.mem x ∨ (p ≤ x ∧ x < p + size ∧ s'.mem x = 0)) ∧
      ∀ r ∈ L', r ∈ L ∨ sys.mmapAddr = some r.1 := by
  by_cases hv : size = 0 ∨ maxSizeToAllocate < size
  · exact ⟨s, B, L, 0, malloc_invalid sys h hv, h, rfl, .null, fun _ => rfl, fun _ _ _ => .inl rfl,
      fun _ hr => .inl hr⟩
  have h0 : 0 < size := by omega
  by_cases hmin : maxSize ≤ size
  · rcases hsys : sys.mmapAddr with _ | addr
    · refine ⟨s, B, L, 0, ?_, h, rfl, .null, fun _ => rfl, fun _ _ _ => .inl rfl, fun _ hr => .inl hr⟩
      rw [malloc, if_neg h.head_ne]
      simp only [if_neg hv, if_pos hmin, hsys]
    · have hfr := hf hmin addr hsys
      obtain ⟨m, p, he, hi, ho⟩ := malloc_map sys h hmin (by omega) hsys hfr
        (show L.length < fuel by omega)
      refine ⟨_, _, _, _, he, hi, rfl, .map hmin hfr, fun h₀ => by simp [sizeofMetadata] at h₀,
        fun x _ hx => ?_, fun r hr => ?_⟩
      · have hhdr := hx (addr, size) (by simp)
        rw [show ({ s with mem := m, mmapHead := p } : State).mem = m from rfl, ho x hx, Mem.fill]
        split_ifs with hin
        · exact .inr ⟨by unfold sizeofMetadata; omega, by omega, rfl⟩
        · exact .inl rfl
      · rcases List.mem_append.mp hr with hr | hr
        · exact .inl hr
        · rw [List.mem_singleton.mp hr]
          exact .inr rfl
  · by_cases hno : ∀ j a, size ≤ payloadSize j → B a ≠ some ⟨j, true⟩
    · exact ⟨s, B, L, 0, malloc_null sys h h0 (by omega) hno, h, rfl, .null, fun _ => rfl,
        fun _ _ _ => .inl rfl, fun _ hr => .inl hr⟩
    · push Not at hno
      obtain ⟨j, a, hfit, ha⟩ := hno
      obtain ⟨k, hkj, hk⟩ := exists_leastOrder hfit
      obtain ⟨j, a, ht⟩ := exists_takes hkj ha
      obtain ⟨m, f, he, hi, ho⟩ := malloc_heap sys h h0 (by omega) hk ht
        (show maxOrder < fuel by omega)
      exact ⟨_, _, _, _, he, hi, rfl, .heap hk ht, fun h₀ => by simp [sizeofMetadata] at h₀,
        fun x hx _ => .inl (ho x hx), fun _ hr => .inl hr⟩

theorem malloc_spec (h : Inv base s B L) (hf : maxSize ≤ size → FreshAnswer base L sys size)
    (hfuel : maxOrder + L.length < fuel) :
    ∃ s' B' L' p, malloc sys fuel s size = .ret (s', p) ∧ Inv base s' B' L' ∧
      s'.cookie = s.cookie ∧ AllocTo base B L sys size B' L' p ∧
      KeptOrCleared base B' L' s.mem s'.mem ∧ ∀ r ∈ L', r ∈ L ∨ sys.mmapAddr = some r.1 := by
  obtain ⟨s', B', L', p, he, hi, hck, hto, -, hframe, hL⟩ := malloc_cases sys h hf hfuel
  refine ⟨s', B', L', p, he, hi, hck, hto, fun x hB hL' => ?_, hL⟩
  exact (hframe x hB hL').imp_right fun hx => hx.2.2

end Malloc

/-! ## Release -/

section Free

variable {base : ℕ} {s : State} {B : Layout} {L : List (ℕ × ℕ)} {fuel : ℕ}

theorem free_eq_union {a : ℕ} (hA : Arena base) (ha : a < arenaUnits)
    (hmm : (slots base s.mem a).isMmap = false) :
    free fuel s (base + startSize * a + sizeofMetadata) = unionIfPossible fuel s (base + startSize * a) := by
  have hlt : base + startSize * a < 2 ^ 64 := by
    have := hA.fits
    unfold startSize at *
    omega
  rw [free, if_neg (by have := hA.pos; omega), headerOf_add hlt]
  simp only [hdr_slot, hmm, Bool.false_eq_true, if_false]

/-- **Freeing a block of the arena** computes `release`. -/
theorem free_heap {a k : ℕ} (h : Inv base s B L) (ha : B a = some ⟨k, false⟩)
    (hq : Quiet B (maxOrder - k) a k) (hfuel : maxOrder < fuel) :
    ∃ m f, free fuel s (base + startSize * a + sizeofMetadata) =
        .ret { s with mem := m, freed := f } ∧
      Inv base { s with mem := m, freed := f } (release B (maxOrder - k) a k) L ∧
      Outside base B s.mem m := by
  obtain ⟨m, f, he, hr, ho⟩ := unionIfPossible_spec h.arena hfuel h.repr ha hq
  refine ⟨m, f, ?_, ⟨h.arena, h.head, hr, h.maps.of_outside ho h.repr.heap.tiles⟩, ho⟩
  rw [free_eq_union h.arena (h.repr.heap.tiles.lt ha) (h.repr.heap.hdrs ha).isMmap, he]

/-- **Freeing a mapped block** takes it out of the list, whatever the arena looks like. The first block is not
given back to the system, and the block behind it keeps its `prev`. -/
theorem Maps.free_mapped {r : ℕ × ℕ} (h : Maps base s.cookie s.mem s.mmapHead L) (hr : r ∈ L)
    (hfuel : L.length < fuel) :
    ∃ m p us, free fuel s (r.1 + sizeofMetadata) =
        .ret { s with mem := m, mmapHead := p, unmapped := us } ∧
      Maps base s.cookie m p (L.erase r) ∧ OnMaps (L.erase r) s.mem m ∧
      us = (if s.mmapHead = r.1 then s.unmapped else (r.1, r.2 + sizeofMetadata) :: s.unmapped) ∧
      (s.mmapHead ≠ r.1 → Back (fun a => (hdr s.mem a).prev) 0 (L.map Prod.fst) →
        Back (fun a => (hdr m a).prev) 0 ((L.erase r).map Prod.fst)) ∧
      ((∀ r' ∈ L, startSize ∣ r'.1) → SameMarks s.mem m) ∧ (s.mmapHead = r.1 → m = s.mem) := by
  have hfr := h.fresh hr
  have hlt : r.1 < 2 ^ 64 := by have := hfr.fits; omega
  have hfree : free fuel s (r.1 + sizeofMetadata) =
      if s.mmapHead = r.1 then .ret { s with mmapHead := (hdr s.mem s.mmapHead).next }
      else prevMmap s.mem r.1 fuel s.mmapHead s.mmapHead >>= fun last =>
        let m := unlinkMmap s.mem last r.1
        if (hdr m r.1).cookie ≠ s.cookie then .exit exitCode
        else .ret { s with
          mem := m, unmapped := (r.1, (hdr m r.1).size + sizeofMetadata) :: s.unmapped } := by
    rw [free, if_neg (by have := hfr.pos; omega), headerOf_add hlt]
    simp only [(h.hdrs hr).isMmap, if_true]
    rfl
  obtain ⟨L₁, L₂, rfl⟩ := List.append_of_mem hr
  have hnd := h.nodup
  rcases List.eq_nil_or_concat' L₁ with rfl | ⟨L₁, r₁, rfl⟩
  · obtain ⟨he, hm⟩ := h.tail
    refine ⟨s.mem, _, s.unmapped, by rw [hfree, if_pos he], ?_, fun _ _ => rfl, by rw [if_pos he],
      fun hne => absurd he hne, fun _ _ _ => rfl, fun _ => rfl⟩
    rwa [List.nil_append, List.erase_cons_head]
  · rw [List.append_assoc, List.singleton_append] at h hr hnd hfuel ⊢
    obtain ⟨hm, hh, ho, -, hmarks⟩ := unlinkMmap_spec h
    generalize hu : unlinkMmap s.mem r₁.1 r.1 = m at hm hh ho hmarks
    have hnotin : r.1 ∉ (L₁ ++ [r₁]).map Prod.fst := by
      rw [show L₁ ++ r₁ :: r :: L₂ = (L₁ ++ [r₁]) ++ r :: L₂ by simp, List.map_append,
        List.nodup_append'] at hnd
      intro hmem
      exact hnd.2.2 hmem (by simp)
    have hhead : s.mmapHead ≠ r.1 := by
      intro he
      have hseg := h.linked
      rw [he] at hseg
      rcases L₁ with _ | ⟨r₀, L₁⟩
      · exact hnotin (by simpa using hseg.1)
      · exact hnotin (by simpa using .inl hseg.1)
    have hprev : prevMmap s.mem r.1 fuel s.mmapHead s.mmapHead = .ret r₁.1 := by
      have hseg := h.linked
      rw [show L₁ ++ r₁ :: r :: L₂ = (L₁ ++ [r₁]) ++ r :: L₂ by simp, List.map_append] at hseg
      rw [prevMmap_spec hseg hnotin (by simp at hfuel ⊢; omega)]
      simp
    have herase : (L₁ ++ r₁ :: r :: L₂).erase r = L₁ ++ r₁ :: L₂ := by
      rw [show L₁ ++ r₁ :: r :: L₂ = (L₁ ++ [r₁]) ++ r :: L₂ by simp, List.erase_append_right,
        List.erase_cons_head]
      · simp
      · exact fun hmem => hnotin (List.mem_map_of_mem hmem)
    refine ⟨m, s.mmapHead, (r.1, r.2 + sizeofMetadata) :: s.unmapped, ?_, ?_, ?_, by rw [if_neg hhead], ?_,
      hmarks, fun he => absurd he hhead⟩
    · rw [hfree, if_neg hhead, hprev, Outcome.ret_bind]
      simp only [hu, hh.cookie, hh.size, ne_eq, not_true_eq_false, if_false]
    · rwa [herase]
    · rwa [herase]
    · intro _ hback
      rw [herase, ← hu]
      exact unlinkMmap_back h hback

/-- **Freeing a mapped block** takes it out of the list. -/
theorem free_map {r : ℕ × ℕ} (h : Inv base s B L) (hr : r ∈ L) (hfuel : L.length < fuel) :
    ∃ m p us, free fuel s (r.1 + sizeofMetadata) =
        .ret { s with mem := m, mmapHead := p, unmapped := us } ∧
      Inv base { s with mem := m, mmapHead := p, unmapped := us } B (L.erase r) ∧
      OnMaps (L.erase r) s.mem m := by
  obtain ⟨m, p, us, he, hm, ho, -⟩ := h.maps.free_mapped hr hfuel
  have hrepr := h.of_onMaps (fun r' hr' => hm.fresh hr') ho
  exact ⟨m, p, us, he, ⟨h.arena, h.head, ⟨hrepr.heap, hrepr.lists, hrepr.cookie⟩, hm⟩, ho⟩

end Free

end OsHomework.Malloc3
