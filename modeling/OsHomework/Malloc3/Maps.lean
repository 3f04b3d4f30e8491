import Mathlib.Data.List.Pairwise
import OsHomework.Lib.Linked
import OsHomework.Malloc3.Steps

/-!
# `malloc_3`: the list of mapped blocks

Requests of 128 KiB and more are mapped, and the mapped blocks are linked from `MMAPhead`.

* `Fresh base L a n`: what `mmap` promises about a region of `n` payload bytes at `a` when the
  regions `L` are in use;
* `Maps base ck m head L`: following `next` from `head` one meets the blocks `L`;
* **`linkMmap_spec`**: a new block goes to the end; **`unlinkMmap_spec`**: `Free` takes one out.
-/

set_option autoImplicit false

namespace OsHomework.Malloc3

/-- Two mapped blocks, headers included, do not overlap. -/
def Apart (r r' : ℕ × ℕ) : Prop :=
  r.1 + sizeofMetadata + r.2 ≤ r'.1 ∨ r'.1 + sizeofMetadata + r'.2 ≤ r.1

instance (r r' : ℕ × ℕ) : Decidable (Apart r r') := instDecidableOr

/-- A region that `mmap` may return: not null, addressable, outside the arena and the blocks `L`. -/
structure Fresh (base : ℕ) (L : List (ℕ × ℕ)) (a n : ℕ) : Prop where
  pos : 0 < a
  fits : a + sizeofMetadata + n < 2 ^ 64
  arena : a + sizeofMetadata + n ≤ base ∨ base + startSize * arenaUnits ≤ a
  apart : ∀ r ∈ L, Apart r (a, n)

/-- The header of a mapped block of `n` bytes, up to its links. -/
structure MapHdr (ck n : ℕ) (h : MallocMetadata) : Prop where
  cookie : h.cookie = ck
  size : h.size = n
  isMmap : h.isMmap = true

/-- **The mapped blocks are `L`**, linked in this order from `head`. -/
structure Maps (base ck : ℕ) (m : Mem) (head : ℕ) (L : List (ℕ × ℕ)) : Prop where
  linked : Seg (fun a => (hdr m a).next) head (L.map Prod.fst) 0
  hdrs : ∀ {r}, r ∈ L → MapHdr ck r.2 (hdr m r.1)
  fresh : ∀ {r}, r ∈ L → Fresh base [] r.1 r.2
  apart : L.Pairwise Apart

/-- Only headers of the blocks `L` differ between the two memories. -/
def OnMaps (L : List (ℕ × ℕ)) (m m' : Mem) : Prop :=
  ∀ x, (∀ r ∈ L, x < r.1 ∨ r.1 + 40 ≤ x) → m' x = m x

theorem Apart.symm {r r' : ℕ × ℕ} (h : Apart r r') : Apart r' r := Or.symm h

instance : Std.Symm Apart := ⟨fun _ _ => Apart.symm⟩

theorem Apart.ne {r r' : ℕ × ℕ} (h : Apart r r') : r.1 ≠ r'.1 := by
  unfold Apart sizeofMetadata at h
  omega

variable {base ck head : ℕ} {m m' : Mem} {L : List (ℕ × ℕ)}

theorem hdr_of_apart {r r' : ℕ × ℕ} (h : Apart r r')
    (hm : ∀ x, x < r.1 ∨ r.1 + 40 ≤ x → m' x = m x) : hdr m' r'.1 = hdr m r'.1 := by
  refine hdr_congr fun x h₁ h₂ => hm x ?_
  unfold Apart sizeofMetadata at h
  omega

namespace Maps

theorem congr_prev (h : Maps base ck m head L)
    (hm : ∀ r ∈ L, ∃ w, hdr m' r.1 = { hdr m r.1 with prev := w }) : Maps base ck m' head L := by
  refine ⟨h.linked.congr fun a ha => ?_, fun {r} hr => ?_, h.fresh, h.apart⟩
  · obtain ⟨r, hr, rfl⟩ := List.mem_map.mp ha
    obtain ⟨w, hw⟩ := hm r hr
    rw [hw]
  · obtain ⟨w, hw⟩ := hm r hr
    have ho := h.hdrs hr
    rw [hw]
    exact ⟨ho.cookie, ho.size, ho.isMmap⟩

theorem congr_out (h : Maps base ck m head L)
    (hm : ∀ x, (∃ r ∈ L, r.1 ≤ x ∧ x < r.1 + 40) → m' x = m x) : Maps base ck m' head L :=
  h.congr_prev fun r hr =>
    ⟨_, (hdr_congr fun x h₁ h₂ => hm x ⟨r, hr, h₁, h₂⟩).trans (self_with_prev _)⟩

theorem nodup (h : Maps base ck m head L) : (L.map Prod.fst).Nodup :=
  List.pairwise_map.mpr (h.apart.imp Apart.ne)

theorem apart_of_ne (h : Maps base ck m head L) {r r' : ℕ × ℕ} (hr : r ∈ L) (hr' : r' ∈ L)
    (hne : r ≠ r') : Apart r r' :=
  h.apart.forall hr hr' hne

end Maps

/-! ## Walking the list -/

theorem lastMmap_spec {l : List ℕ} {n curr last : ℕ} (h : Seg (fun a => (hdr m a).next) curr l 0)
    (hn : l.length < n) : lastMmap m n curr last = .ret (l.getLastD last) := by
  obtain ⟨n, rfl⟩ := Nat.exists_eq_succ_of_ne_zero (Nat.ne_zero_of_lt hn)
  induction l generalizing n curr last with
  | nil =>
    rw [lastMmap, if_neg (not_not.mpr (show curr = 0 from h))]
    rfl
  | cons a l ih =>
    obtain ⟨rfl, h₀, h⟩ := h
    obtain ⟨n, rfl⟩ := Nat.exists_eq_succ_of_ne_zero (show n ≠ 0 by rintro rfl; simp at hn)
    rw [lastMmap, if_pos h₀, ih h n (by simpa using hn), List.getLastD_cons]

theorem prevMmap_spec {b : ℕ} {l₂ : List ℕ} : ∀ {l₁ : List ℕ} {n curr last : ℕ},
    Seg (fun a => (hdr m a).next) curr (l₁ ++ b :: l₂) 0 → b ∉ l₁ → l₁.length < n →
      prevMmap m b n curr last = .ret (l₁.getLastD last)
  | _, 0, _, _, _, _, hn => by simp at hn
  | [], n + 1, curr, last, h, _, _ => by
    rw [prevMmap, if_neg (not_not.mpr h.1)]; rfl
  | a :: l, n + 1, curr, last, h, hb, hn => by
    obtain ⟨rfl, h₀, h⟩ := h
    rw [prevMmap, if_pos fun e => hb (by rw [e]; exact List.mem_cons_self), if_neg h₀,
      prevMmap_spec h (fun hm => hb (List.mem_cons_of_mem _ hm)) (by simpa using hn),
      List.getLastD_cons]

/-! ## The marks of headers -/

/-- No header at a multiple of 128 changes its mark. -/
def SameMarks (m m' : Mem) : Prop := ∀ x, startSize ∣ x → (hdr m' x).isFree = (hdr m x).isFree

theorem SameMarks.trans {m'' : Mem} (h₁ : SameMarks m m') (h₂ : SameMarks m' m'') : SameMarks m m'' :=
  fun x hx => (h₂ x hx).trans (h₁ x hx)

theorem sameMarks_of_update {a : ℕ} (ha : startSize ∣ a) (hm : ∀ x, x < a ∨ a + 40 ≤ x → m' x = m x)
    (h : (hdr m' a).isFree = (hdr m a).isFree) : SameMarks m m' := by
  intro x hx
  by_cases he : x = a
  · rw [he, h]
  · rw [hdr_of_ne ha hx he hm]

theorem sameMarks_setNext {a : ℕ} (ha : startSize ∣ a) (v : ℕ) : SameMarks m (setNext m a v) :=
  sameMarks_of_update ha (fun _ hx => setNext_out _ _ _ hx) (by rw [hdr_setNext])

theorem sameMarks_setPrevIf {next v : ℕ} (hn : startSize ∣ next) : SameMarks m (setPrevIf m next v) := by
  unfold setPrevIf
  split_ifs
  · exact sameMarks_of_update hn (fun _ hx => setPrev_out _ _ _ hx) (by rw [hdr_setPrev])
  · exact fun _ _ => rfl

/-! ## Linking a new block in -/

/-- The header a new block is given. -/
structure NewHdr (ck n : ℕ) (h : MallocMetadata) : Prop extends MapHdr ck n h where
  next : h.next = 0

/-- Linking in after the header is known. -/
theorem Maps.push {a n : ℕ} (h : Maps base ck m head L) (hL : L ≠ []) (hf : Fresh base L a n)
    (hnew : NewHdr ck n (hdr m' a))
    (hlast : ∀ L' r, L = L' ++ [r] → hdr m' r.1 = { hdr m r.1 with next := a } ∧
      ∀ r' ∈ L', hdr m' r'.1 = hdr m r'.1) : Maps base ck m' head (L ++ [(a, n)]) := by
  obtain ⟨L', r, rfl⟩ := List.eq_nil_or_concat'  L |>.resolve_left hL
  obtain ⟨hr, hL'⟩ := hlast L' r rfl
  refine ⟨?_, ?_, ?_, ?_⟩
  · have hseg := h.linked
    rw [List.map_append] at hseg
    rw [List.map_append, List.map_append]
    refine hseg.push hf.pos.ne' (by rw [hr]) hnew.next fun c hc => ?_
    obtain ⟨r', hr', rfl⟩ := List.mem_map.mp hc
    rw [hL' r' hr']
  · intro r' hr'
    rcases List.mem_append.mp hr' with hr' | hr'
    · rcases List.mem_append.mp hr' with hr'' | hr''
      · rw [hL' r' hr'']; exact h.hdrs hr'
      · obtain rfl := List.mem_singleton.mp hr''
        rw [hr]
        have := h.hdrs hr'
        exact ⟨this.cookie, this.size, this.isMmap⟩
    · obtain rfl := List.mem_singleton.mp hr'
      exact hnew.toMapHdr
  · intro r' hr'
    rcases List.mem_append.mp hr' with hr' | hr'
    · exact h.fresh hr'
    · obtain rfl := List.mem_singleton.mp hr'
      exact ⟨hf.pos, hf.fits, hf.arena, by simp⟩
  · exact List.pairwise_append.mpr ⟨h.apart, List.pairwise_singleton _ _, fun r' hr' r'' hr'' => by
      rw [List.mem_singleton.mp hr'']; exact hf.apart r' hr'⟩

/-- **`linkMmap` puts the new block at the end of the list.** -/
theorem linkMmap_spec {s : State} {a n fuel : ℕ} (hck : s.cookie < 2 ^ 32)
    (h : Maps base s.cookie s.mem s.mmapHead L) (hf : Fresh base L a n) (hfuel : L.length < fuel) :
    ∃ m p, linkMmap fuel s a n = .ret { s with mem := m, mmapHead := p } ∧
      Maps base s.cookie m p (L ++ [(a, n)]) ∧ OnMaps (L ++ [(a, n)]) s.mem m ∧
      (hdr m a).prev = (L.map Prod.fst).getLastD 0 ∧
      (∀ r ∈ L, ∃ v, hdr m r.1 = { hdr s.mem r.1 with next := v }) ∧
      ((∀ r ∈ L ++ [(a, n)], startSize ∣ r.1) → SameMarks s.mem m) := by
  have hn : n % 2 ^ 64 = n := Nat.mod_eq_of_lt (by have := hf.fits; omega)
  have ha : a % 2 ^ 64 = a := Nat.mod_eq_of_lt (by have := hf.fits; omega)
  unfold linkMmap
  rcases List.eq_nil_or_concat' L with rfl | ⟨L', r, rfl⟩
  · rw [if_pos (show s.mmapHead = 0 from h.linked)]
    have hout : ∀ x, x < a ∨ a + 40 ≤ x → setIsMmap (setCookie (setPrev (setSize (setNext (setOrder s.mem a
        (-1)) a 0) a n) a 0) a s.cookie) a true x = s.mem x := fun x hx => by
      rw [setIsMmap_out _ _ _ hx, setCookie_out _ _ _ hx, setPrev_out _ _ _ hx, setSize_out _ _ _ hx,
        setNext_out _ _ _ hx, setOrder_out _ _ _ hx]
    refine ⟨_, a, rfl, ⟨⟨rfl, hf.pos.ne', ?_⟩, ?_, ?_, List.pairwise_singleton _ _⟩,
      fun x hx => hout x (hx (a, n) (by simp)), ?_, by simp, fun hd => ?_⟩
    · simp only [hdr_setIsMmap, hdr_setCookie, hdr_setPrev, hdr_setSize, hdr_setNext]
      rfl
    · intro r hr
      obtain rfl := List.mem_singleton.mp hr
      simp only [hdr_setIsMmap, hdr_setCookie, hdr_setPrev, hdr_setSize, Nat.mod_eq_of_lt hck, hn]
      exact ⟨rfl, rfl, rfl⟩
    · intro r hr
      obtain rfl := List.mem_singleton.mp hr
      exact hf
    · simp only [hdr_setIsMmap, hdr_setCookie, hdr_setPrev]
      rfl
    · exact sameMarks_of_update (hd (a, n) (by simp)) hout
        (by rw [hdr_setIsMmap, hdr_setCookie, hdr_setPrev, hdr_setSize, hdr_setNext, hdr_setOrder])
  · have hmem : r ∈ L' ++ [r] := by simp
    have hapart : Apart r (a, n) := hf.apart r hmem
    have hlast : lastMmap s.mem fuel s.mmapHead s.mmapHead = .ret r.1 := by
      rw [lastMmap_spec h.linked (by simpa using hfuel)]
      simp
    have hne : s.mmapHead ≠ 0 := by
      intro h0
      have hseg := h.linked
      rw [h0, List.map_append] at hseg
      have := seg_snoc.mp hseg
      rcases hL' : L'.map Prod.fst with _ | ⟨b, l⟩
      · rw [hL'] at this; exact this.2.1 this.1.symm
      · rw [hL'] at this; exact this.1.2.1 this.1.1.symm
    rw [if_neg hne, hlast, Outcome.ret_bind]
    -- everything after the first store happens in the header of the new block
    have hout : ∀ x, x < a ∨ a + 40 ≤ x → setIsMmap (setPrev (setSize (setNext (setOrder (setCookie
        (setNext s.mem r.1 a) a s.cookie) a (-1)) a 0) a n) a r.1) a true x =
          setNext s.mem r.1 a x := fun x hx => by
      rw [setIsMmap_out _ _ _ hx, setPrev_out _ _ _ hx, setSize_out _ _ _ hx, setNext_out _ _ _ hx,
        setOrder_out _ _ _ hx, setCookie_out _ _ _ hx]
    have hlink : hdr (setIsMmap (setPrev (setSize (setNext (setOrder (setCookie
        (setNext s.mem r.1 a) a s.cookie) a (-1)) a 0) a n) a r.1) a true) r.1 =
          { hdr s.mem r.1 with next := a } := by
      rw [hdr_of_apart (r := (a, n)) hapart.symm hout, hdr_setNext, ha]
    have hkeep : ∀ r' ∈ L', hdr (setIsMmap (setPrev (setSize (setNext (setOrder (setCookie
        (setNext s.mem r.1 a) a s.cookie) a (-1)) a 0) a n) a r.1) a true) r'.1 = hdr s.mem r'.1 := by
      intro r' hr'
      rw [hdr_of_apart (r := (a, n)) (hf.apart r' (by simp [hr'])).symm hout]
      refine hdr_of_apart (r := r) ?_ fun x hx => setNext_out _ _ _ hx
      exact (List.pairwise_append.mp h.apart).2.2 r' hr' r (by simp) |>.symm
    refine ⟨_, s.mmapHead, rfl, h.push (by simp) hf ?_ ?_, ?_, ?_, ?_, fun hd => ?_⟩
    · simp only [hdr_setIsMmap, hdr_setPrev, hdr_setSize, hdr_setNext, hdr_setOrder, hdr_setCookie,
        Nat.mod_eq_of_lt hck, hn]
      exact ⟨⟨rfl, rfl, rfl⟩, rfl⟩
    · intro L'' r'' he
      obtain ⟨rfl, rfl⟩ : L' = L'' ∧ r = r'' := by
        have := List.append_inj' he rfl
        simpa using this
      exact ⟨hlink, hkeep⟩
    · intro x hx
      have hxa := hx (a, n) (by simp)
      have hxr := hx r (by simp)
      exact (hout x hxa).trans (setNext_out _ _ _ hxr)
    · have hr : r.1 % 2 ^ 64 = r.1 := Nat.mod_eq_of_lt (by have := (h.fresh hmem).fits; omega)
      simp only [hdr_setIsMmap, hdr_setPrev, hr, List.map_append, List.map_cons, List.map_nil,
        List.getLastD_concat]
    · intro r' hr'
      rcases List.mem_append.mp hr' with hr' | hr'
      · exact ⟨_, hkeep r' hr'⟩
      · rw [List.mem_singleton.mp hr']
        exact ⟨a, hlink⟩
    · exact (sameMarks_setNext (hd r (by simp)) a).trans (sameMarks_of_update (hd (a, n) (by simp)) hout
        (by rw [hdr_setIsMmap, hdr_setPrev, hdr_setSize, hdr_setNext, hdr_setOrder, hdr_setCookie]))

/-! ## Taking a block out -/

/-- The first block goes: only `MMAPhead` changes. -/
theorem Maps.tail {r : ℕ × ℕ} (h : Maps base ck m head (r :: L)) :
    head = r.1 ∧ Maps base ck m (hdr m head).next L := by
  obtain ⟨rfl, -, hseg⟩ := h.linked
  exact ⟨rfl, hseg, fun hr => h.hdrs (List.mem_cons_of_mem _ hr),
    fun hr => h.fresh (List.mem_cons_of_mem _ hr), h.apart.of_cons⟩

/-- The stores of `Free` around a block that is not the first. -/
def unlinkMmap (m : Mem) (last start : ℕ) : Mem :=
  let m := setNext m last (hdr m start).next
  setPrevIf m (hdr m start).next last

theorem Maps.seg_next {L₁ L₂ : List (ℕ × ℕ)} {r : ℕ × ℕ} (h : Maps base ck m head (L₁ ++ r :: L₂)) :
    Seg (fun a => (hdr m a).next) (hdr m r.1).next (L₂.map Prod.fst) 0 := by
  have hseg := h.linked
  rw [List.map_append, seg_append] at hseg
  obtain ⟨q, -, -, -, hseg⟩ := hseg
  exact hseg

/-- The `next` of a block of the list is null or the address of a block of the list. -/
theorem Maps.next_mem {r : ℕ × ℕ} (h : Maps base ck m head L) (hr : r ∈ L)
    (h₀ : (hdr m r.1).next ≠ 0) : ∃ r' ∈ L, (hdr m r.1).next = r'.1 := by
  obtain ⟨L₁, L₂, rfl⟩ := List.append_of_mem hr
  rcases L₂ with _ | ⟨r', L₂⟩
  · exact absurd h.seg_next h₀
  · exact ⟨r', by simp, h.seg_next.1⟩

theorem Maps.hdr_setPrevIf {next v : ℕ} {r : ℕ × ℕ} (h : Maps base ck m head L) (hr : r ∈ L)
    (hnext : next ≠ 0 → ∃ r' ∈ L, next = r'.1) (m' : Mem) :
    ∃ w, hdr (setPrevIf m' next v) r.1 = { hdr m' r.1 with prev := w } := by
  unfold setPrevIf
  split_ifs with h₀
  · obtain ⟨r', hr', rfl⟩ := hnext h₀
    by_cases he : r' = r
    · rw [he, hdr_setPrev]
      exact ⟨_, rfl⟩
    · rw [hdr_of_apart (h.apart_of_ne hr' hr he) fun x hx => setPrev_out _ _ _ hx]
      exact ⟨_, rfl⟩
  · exact ⟨_, rfl⟩

/-- **A block that is not the first is taken out of the list.** -/
theorem unlinkMmap_spec {L₁ L₂ : List (ℕ × ℕ)} {r₁ r : ℕ × ℕ}
    (h : Maps base ck m head (L₁ ++ r₁ :: r :: L₂)) :
    Maps base ck (unlinkMmap m r₁.1 r.1) head (L₁ ++ r₁ :: L₂) ∧
      MapHdr ck r.2 (hdr (unlinkMmap m r₁.1 r.1) r.1) ∧
      OnMaps (L₁ ++ r₁ :: L₂) m (unlinkMmap m r₁.1 r.1) ∧
      (∀ r' ∈ L₁ ++ r₁ :: L₂, (hdr (unlinkMmap m r₁.1 r.1) r'.1).prev =
        if (hdr m r.1).next = r'.1 then r₁.1 else (hdr m r'.1).prev) ∧
      ((∀ r' ∈ L₁ ++ r₁ :: r :: L₂, startSize ∣ r'.1) → SameMarks m (unlinkMmap m r₁.1 r.1)) := by
  have hr₁ : r₁ ∈ L₁ ++ r₁ :: r :: L₂ := by simp
  have hr : r ∈ L₁ ++ r₁ :: r :: L₂ := by simp
  have hsub : ∀ {r'}, r' ∈ L₁ ++ r₁ :: L₂ → r' ∈ L₁ ++ r₁ :: r :: L₂ := by
    intro r' hr'
    simp only [List.mem_append, List.mem_cons] at hr' ⊢
    tauto
  have hnd := List.nodup_middle.mp h.nodup.of_map
  have hne : r₁ ≠ r := fun e => by simp [e] at hnd
  have hout : ∀ r' ∈ L₁ ++ r₁ :: r :: L₂, r' ≠ r₁ →
      hdr (setNext m r₁.1 (hdr m r.1).next) r'.1 = hdr m r'.1 := fun r' hr' hne' =>
    hdr_of_apart (h.apart_of_ne hr₁ hr' hne'.symm) fun x hx => setNext_out _ _ _ hx
  have hnext : (hdr (setNext m r₁.1 (hdr m r.1).next) r.1).next = (hdr m r.1).next := by
    rw [hout r hr hne.symm]
  have hprev : ∀ r' ∈ L₁ ++ r₁ :: r :: L₂, ∃ w, hdr (unlinkMmap m r₁.1 r.1) r'.1 =
      { hdr (setNext m r₁.1 (hdr m r.1).next) r'.1 with prev := w } := by
    intro r' hr'
    rw [unlinkMmap, hnext]
    exact h.hdr_setPrevIf hr' (h.next_mem hr) _
  -- so every other header keeps all but its `prev`
  have hkeep : ∀ r' ∈ L₁ ++ r₁ :: r :: L₂, r' ≠ r₁ → ∃ w, hdr (unlinkMmap m r₁.1 r.1) r'.1 =
      { hdr m r'.1 with prev := w } := fun r' hr' hne' => by
    obtain ⟨w, hw⟩ := hprev r' hr'
    exact ⟨w, by rw [hw, hout r' hr' hne']⟩
  have hmap : ∀ r' ∈ L₁ ++ r₁ :: r :: L₂, MapHdr ck r'.2 (hdr (unlinkMmap m r₁.1 r.1) r'.1) := by
    intro r' hr'
    have ho := h.hdrs hr'
    obtain ⟨w, hw⟩ := hprev r' hr'
    by_cases he : r' = r₁
    · rw [hw, he, hdr_setNext, ← he]
      exact ⟨ho.cookie, ho.size, ho.isMmap⟩
    · rw [hw, hout r' hr' he]
      exact ⟨ho.cookie, ho.size, ho.isMmap⟩
  refine ⟨⟨?_, fun hr' => hmap _ (hsub hr'), fun hr' => h.fresh (hsub hr'), ?_⟩, hmap r hr, ?_, ?_, ?_⟩
  · have hseg := h.linked
    simp only [List.map_append, List.map_cons] at hseg ⊢
    refine hseg.drop ?_ ?_ ?_
    · obtain ⟨w, hw⟩ := hprev r₁ hr₁
      rw [hw, hdr_setNext]
      exact Nat.mod_eq_of_lt (hdr_next_lt m r.1)
    · intro c hc
      obtain ⟨r', hr', rfl⟩ := List.mem_map.mp hc
      obtain ⟨w, hw⟩ := hkeep r' (by simp [hr']) fun e => by simp [← e, hr'] at hnd
      rw [hw]
    · intro c hc
      obtain ⟨r', hr', rfl⟩ := List.mem_map.mp hc
      obtain ⟨w, hw⟩ := hkeep r' (by simp [hr']) fun e => by simp [← e, hr'] at hnd
      rw [hw]
  · refine h.apart.sublist ?_
    exact (List.Sublist.refl L₁).append (((List.sublist_cons_self r L₂)).cons_cons r₁)
  · intro x hx
    have hx₁ := hx r₁ (by simp)
    rw [unlinkMmap, hnext, setPrevIf_out, setNext_out _ _ _ hx₁]
    have h₂ : Maps base ck m head ((L₁ ++ [r₁]) ++ r :: L₂) := by simpa using h
    have hseg₂ := h₂.seg_next
    intro h₀
    rcases hL₂ : L₂ with _ | ⟨r₂, L₂'⟩
    · rw [hL₂] at hseg₂
      exact absurd hseg₂ h₀
    · rw [hL₂] at hseg₂
      rw [show (hdr m r.1).next = r₂.1 from hseg₂.1]
      exact hx r₂ (by simp [hL₂])
  · intro r' hr'
    have hlink : (hdr (setNext m r₁.1 (hdr m r.1).next) r'.1).prev = (hdr m r'.1).prev := by
      by_cases he : r' = r₁
      · rw [he, hdr_setNext]
      · rw [hout r' (hsub hr') he]
    have hr₁lt : r₁.1 % 2 ^ 64 = r₁.1 := Nat.mod_eq_of_lt (by have := (h.fresh hr₁).fits; omega)
    rw [unlinkMmap, hnext, setPrevIf]
    by_cases h₀ : (hdr m r.1).next = 0
    · rw [if_neg (not_not.mpr h₀), if_neg, hlink]
      exact fun he => (h.fresh (hsub hr')).pos.ne' (he.symm.trans h₀)
    · obtain ⟨r'', hr'', he⟩ := h.next_mem hr h₀
      rw [if_pos h₀, he]
      by_cases hr'eq : r'' = r'
      · rw [hr'eq, if_pos rfl, hdr_setPrev]
        exact hr₁lt
      · have hap := h.apart_of_ne hr'' (hsub hr') hr'eq
        rw [if_neg hap.ne, hdr_of_apart hap fun x hx => setPrev_out _ _ _ hx, ← hlink, he]
  · intro hd
    have hdvd : startSize ∣ (hdr m r.1).next := by
      by_cases h₀ : (hdr m r.1).next = 0
      · rw [h₀]
        exact dvd_zero _
      · obtain ⟨r', hr', he⟩ := h.next_mem hr h₀
        rw [he]
        exact hd r' hr'
    rw [unlinkMmap, hnext]
    exact (sameMarks_setNext (hd r₁ hr₁) _).trans (sameMarks_setPrevIf hdvd)

/-- **The way back after a block is taken out**: the block behind it leads to the block before it. -/
theorem unlinkMmap_back {L₁ L₂ : List (ℕ × ℕ)} {r₁ r : ℕ × ℕ}
    (h : Maps base ck m head (L₁ ++ r₁ :: r :: L₂))
    (hback : Back (fun a => (hdr m a).prev) 0 ((L₁ ++ r₁ :: r :: L₂).map Prod.fst)) :
    Back (fun a => (hdr (unlinkMmap m r₁.1 r.1) a).prev) 0 ((L₁ ++ r₁ :: L₂).map Prod.fst) := by
  obtain ⟨-, -, -, hprevs, -⟩ := unlinkMmap_spec h
  have hseg : Seg (fun a => (hdr m a).next) (hdr m r.1).next (L₂.map Prod.fst) 0 := by
    have h₂ : Maps base ck m head ((L₁ ++ [r₁]) ++ r :: L₂) := by simpa using h
    exact h₂.seg_next
  have hkeep : ∀ r' ∈ L₁ ++ r₁ :: L₂, (hdr m r.1).next ≠ r'.1 →
      (hdr (unlinkMmap m r₁.1 r.1) r'.1).prev = (hdr m r'.1).prev := fun r' hr' hne => by
    rw [hprevs r' hr', if_neg hne]
  simp only [List.map_append, List.map_cons] at hback ⊢
  rcases L₂ with _ | ⟨r₂, L₂⟩
  · have hnext : ∀ r' ∈ L₁ ++ [r₁], (hdr m r.1).next ≠ r'.1 := fun r' hr' he =>
      (h.fresh (r := r') (by rw [List.append_cons]; exact List.mem_append_left _ hr')).pos.ne'
        (he.symm.trans hseg)
    refine hback.drop (fun c hc => ?_) (hkeep r₁ (by simp) (hnext r₁ (by simp))) fun c l hcl => by cases hcl
    obtain ⟨r', hr', rfl⟩ := List.mem_map.mp hc
    exact hkeep r' (by simp [hr']) (hnext r' (by simp [hr']))
  · have hr₂ : (hdr m r.1).next = r₂.1 := hseg.1
    have hmem₂ : r₂ ∈ L₁ ++ r₁ :: r :: r₂ :: L₂ := by simp
    have hne : ∀ r' ∈ L₁ ++ r₁ :: r :: r₂ :: L₂, r' ≠ r₂ → (hdr m r.1).next ≠ r'.1 := fun r' hr' hne' => by
      rw [hr₂]
      exact (h.apart_of_ne hmem₂ hr' hne'.symm).ne
    have hnd := h.nodup.of_map
    rw [show L₁ ++ r₁ :: r :: r₂ :: L₂ = (L₁ ++ [r₁, r]) ++ r₂ :: L₂ by simp, List.nodup_middle,
      List.nodup_cons] at hnd
    have hbefore : ∀ r' ∈ L₁ ++ [r₁], r' ≠ r₂ := by
      rintro r' hr' rfl
      refine hnd.1 (List.mem_append_left _ ?_)
      rw [show L₁ ++ [r₁, r] = L₁ ++ [r₁] ++ [r] by simp]
      exact List.mem_append_left _ hr'
    refine hback.drop (fun c hc => ?_) (hkeep r₁ (by simp) (hne r₁ (by simp) (hbefore r₁ (by simp))))
      fun c l hcl => ?_
    · obtain ⟨r', hr', rfl⟩ := List.mem_map.mp hc
      exact hkeep r' (by simp [hr']) (hne r' (by simp [hr']) (hbefore r' (by simp [hr'])))
    · obtain ⟨rfl, rfl⟩ := List.cons.inj hcl
      refine ⟨by rw [hprevs r₂ (by simp), if_pos hr₂], fun d hd => ?_⟩
      obtain ⟨r', hr', rfl⟩ := List.mem_map.mp hd
      refine hkeep r' (by simp [hr']) (hne r' (by simp [hr']) ?_)
      rintro rfl
      exact hnd.1 (by simp [hr'])

end OsHomework.Malloc3
