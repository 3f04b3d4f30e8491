import OsHomework.Lib.Linked
import OsHomework.Malloc2.Model

/-!
# `malloc_2`: the blocks in memory

The list from `head` is a doubly linked list of neighbouring blocks that fills the memory between the
break before the first allocation and the current one.

* `Layout brk₀ s l`: the blocks of the list are `l`; `Layout.of_fields`, `Layout.of_headers`: what a
  write must leave alone;
* `findBlock_spec`: the loop of `malloc` is a search in `l`;
* `Taken s s' l l' size a`: `a` became the block of a request of `size` bytes;
* **`Layout.malloc`**: `malloc` returns `NULL` and changes nothing, or takes a block.
-/

set_option autoImplicit false

namespace OsHomework.Malloc2

/-- The length of a block, header included. -/
def blockLen (m : Mem) (a : ℕ) : ℕ := sizeofMetadata + (hdr m a).size

/-- **The list from `head` consists of the blocks `l`**, which fill the memory from `brk₀` to the
break. -/
structure Layout (brk₀ : ℕ) (s : State) (l : List ℕ) : Prop where
  pos : 0 < brk₀
  top : s.brk < 2 ^ 64
  blocks : Contig (fun a => (hdr s.mem a).next) (fun a => (hdr s.mem a).prev) (blockLen s.mem)
    s.head s.brk l
  first : l ≠ [] → s.head = brk₀ ∧ (hdr s.mem s.head).prev = 0
  empty : l = [] → s.brk = brk₀

/-- Not a byte of a header. -/
def OffHeaders (l : List ℕ) (x : ℕ) : Prop := ∀ b ∈ l, x < b ∨ b + sizeofMetadata ≤ x

/-- A byte of the payload of `a`. -/
def InPayload (m : Mem) (a x : ℕ) : Prop :=
  a + sizeofMetadata ≤ x ∧ x < a + sizeofMetadata + (hdr m a).size

theorem blockLen_pos (m : Mem) (a : ℕ) : 0 < blockLen m a := by
  unfold blockLen sizeofMetadata; omega

namespace Layout

variable {brk₀ : ℕ} {s : State} {l : List ℕ} {a b x : ℕ}

theorem head_mem (h : Layout brk₀ s l) (hl : l ≠ []) : s.head ∈ l := by
  obtain ⟨a, l, rfl⟩ := List.exists_cons_of_ne_nil hl
  rw [h.blocks.linked.1]
  exact List.mem_cons_self

theorem le_brk (h : Layout brk₀ s l) (ha : a ∈ l) :
    a + sizeofMetadata + (hdr s.mem a).size ≤ s.brk := by
  have := (h.blocks.next_eq (fun b _ => blockLen_pos _ b) a ha).1
  unfold blockLen at this
  omega

theorem le_head (h : Layout brk₀ s l) (ha : a ∈ l) : brk₀ ≤ a := by
  rw [← (h.first (List.ne_nil_of_mem ha)).1]
  exact h.blocks.head_le a ha

theorem headerOf_add (h : Layout brk₀ s l) (ha : a ∈ l) : headerOf (a + sizeofMetadata) = a := by
  have := h.le_brk ha
  have := h.top
  rw [headerOf, subSize_of_le (by omega) (by omega), Nat.add_sub_cancel]

/-- **Two blocks do not overlap.** -/
theorem apart (h : Layout brk₀ s l) (ha : a ∈ l) (hb : b ∈ l) (hab : a ≠ b) :
    a + sizeofMetadata + (hdr s.mem a).size ≤ b ∨ b + sizeofMetadata + (hdr s.mem b).size ≤ a := by
  have h₁ := h.blocks.not_inside a ha b hb
  have h₂ := h.blocks.not_inside b hb a ha
  unfold blockLen at h₁ h₂
  omega

theorem offHeaders (h : Layout brk₀ s l) (ha : a ∈ l) (hx : InPayload s.mem a x) :
    OffHeaders l x := by
  intro b hb
  by_cases hab : a = b
  · exact .inr (hab ▸ hx.1)
  · have := h.apart ha hb hab
    unfold InPayload at hx
    omega

theorem payload_unique (h : Layout brk₀ s l) (ha : a ∈ l) (hb : b ∈ l)
    (hxa : InPayload s.mem a x) (hxb : InPayload s.mem b x) : a = b := by
  by_contra hab
  have := h.apart ha hb hab
  unfold InPayload at hxa hxb
  omega

/-! ## Writes that keep the layout -/

theorem of_fields {m : Mem} (h : Layout brk₀ s l) (hsize : ∀ a ∈ l, (hdr m a).size = (hdr s.mem a).size)
    (hnext : ∀ a ∈ l, (hdr m a).next = (hdr s.mem a).next)
    (hprev : ∀ a ∈ l, (hdr m a).prev = (hdr s.mem a).prev) : Layout brk₀ { s with mem := m } l where
  pos := h.pos
  top := h.top
  blocks := h.blocks.congr hnext hprev fun a ha => by rw [blockLen, blockLen, hsize a ha]
  first := fun hl => by
    obtain ⟨h₁, h₂⟩ := h.first hl
    exact ⟨h₁, (hprev s.head (h.head_mem hl)).trans h₂⟩
  empty := h.empty

theorem of_headers {m : Mem} (h : Layout brk₀ s l) (hm : ∀ a ∈ l, hdr m a = hdr s.mem a) :
    Layout brk₀ { s with mem := m } l :=
  h.of_fields (fun a ha => by rw [hm a ha]) (fun a ha => by rw [hm a ha])
    fun a ha => by rw [hm a ha]

end Layout

theorem hdr_eq_of_offHeaders {l : List ℕ} {m m' : Mem} {a : ℕ} (ha : a ∈ l)
    (hm : ∀ x, ¬ OffHeaders l x → m' x = m x) : hdr m' a = hdr m a := by
  apply hdr_congr
  intro x h₁ h₂
  apply hm
  intro hx
  have := hx a ha
  unfold sizeofMetadata at this
  omega

section Mark

variable {brk₀ : ℕ} {s : State} {l : List ℕ} {a b : ℕ}

theorem Layout.hdr_eq_of_ne (h : Layout brk₀ s l) {m m' : Mem} (ha : a ∈ l) (hb : b ∈ l)
    (hab : b ≠ a) (hm : ∀ x, x < a ∨ a + 32 ≤ x → m' x = m x) : hdr m' b = hdr m b := by
  apply hdr_congr
  intro x h₁ h₂
  apply hm
  have := h.apart ha hb (Ne.symm hab)
  unfold sizeofMetadata at this
  omega

theorem Layout.hdr_mark (h : Layout brk₀ s l) (ha : a ∈ l) (f : Bool) (hb : b ∈ l) :
    hdr (setIsFree s.mem a f) b =
      if b = a then { hdr s.mem b with isFree := f } else hdr s.mem b := by
  split_ifs with hab
  · rw [hab, hdr_setIsFree]
  · exact h.hdr_eq_of_ne ha hb hab fun x hx => setIsFree_out _ _ _ hx

/-- **A block may be marked.** -/
theorem Layout.mark (h : Layout brk₀ s l) (ha : a ∈ l) (f : Bool) :
    Layout brk₀ { s with mem := setIsFree s.mem a f } l := by
  refine h.of_fields (fun b hb => ?_) (fun b hb => ?_) fun b hb => ?_ <;>
    rw [h.hdr_mark ha f hb] <;> split_ifs <;> rfl

end Mark

/-! ## The search -/

section Search

variable {m : Mem} {size : ℕ}

/-- What the loop of `malloc` looks for. -/
def Fits (m : Mem) (size a : ℕ) : Bool := (hdr m a).isFree ∧ size ≤ (hdr m a).size

/-- **The loop of `malloc` is a search in the list.** -/
theorem findBlock_spec {l : List ℕ} {n curr last : ℕ} (h : Seg (fun a => (hdr m a).next) curr l 0)
    (hn : l.length < n) : findBlock m size n curr last = .ret
      (match l.find? (Fits m size) with
        | some a => .inl a
        | none => .inr (l.getLastD last)) := by
  -- along the list; the search has looked at the blocks before `curr`
  induction l generalizing n curr last with
  | nil =>
    obtain ⟨n, rfl⟩ := Nat.exists_eq_succ_of_ne_zero (Nat.ne_zero_of_lt hn)
    rw [findBlock, if_pos (show curr = 0 from h)]
    rfl
  | cons a l ih =>
    obtain ⟨n, rfl⟩ := Nat.exists_eq_succ_of_ne_zero (Nat.ne_zero_of_lt hn)
    obtain ⟨rfl, ha, hs⟩ := h
    rw [findBlock, if_neg ha, List.find?_cons]
    by_cases hf : (hdr m curr).isFree ∧ size ≤ (hdr m curr).size
    · rw [if_pos hf, show Fits m size curr = true from decide_eq_true hf]
    · rw [if_neg hf, show Fits m size curr = false from decide_eq_false hf,
        ih hs (by simpa using hn)]
      cases l with
      | nil => rfl
      | cons b l => simp [List.getLastD]

end Search

/-! ## `malloc` -/

/-- **`a` became the block of a request of `size` bytes.** It was free or it is new; the other blocks
keep their sizes and marks, and no byte changes but in headers and in the payload of `a`. -/
structure Taken (s s' : State) (l l' : List ℕ) (size a : ℕ) : Prop where
  sub : l ⊆ l'
  mem : a ∈ l'
  old_or_new : ∀ b ∈ l', b ∈ l ∨ b = a
  wasFree : a ∈ l → (hdr s.mem a).isFree = true
  fits : size ≤ (hdr s'.mem a).size
  used : (hdr s'.mem a).isFree = false
  sizes : ∀ b ∈ l, (hdr s'.mem b).size = (hdr s.mem b).size
  marks : ∀ b ∈ l, b ≠ a → (hdr s'.mem b).isFree = (hdr s.mem b).isFree
  frame : ∀ x, OffHeaders l' x → ¬ InPayload s'.mem a x → s'.mem x = s.mem x

section Malloc

variable {brk₀ : ℕ} {s : State} {l : List ℕ} {a size : ℕ}

theorem Layout.taken_of_mem (h : Layout brk₀ s l) (ha : a ∈ l) (hf : (hdr s.mem a).isFree = true)
    (hs : size ≤ (hdr s.mem a).size) :
    Taken s { s with mem := setIsFree s.mem a false } l l size a where
  sub := List.Subset.refl l
  mem := ha
  old_or_new := fun b hb => .inl hb
  wasFree := fun _ => hf
  fits := by simpa only [hdr_setIsFree] using hs
  used := by simp only [hdr_setIsFree]
  sizes := fun b hb => by
    simp only [h.hdr_mark ha false hb]
    split_ifs <;> rfl
  marks := fun b hb hba => by simp only [h.hdr_mark ha false hb, if_neg hba]
  frame := fun x hx _ => setIsFree_out _ _ _ (hx a ha)

theorem hdr_writeHeader (m : Mem) (curr last size : ℕ) : hdr (writeHeader m curr last size) curr =
    { size := size % 2 ^ 64, isFree := false, next := 0, prev := last % 2 ^ 64 } := by
  simp only [writeHeader, hdr_setPrev, hdr_setNext, hdr_setSize, hdr_setIsFree, Nat.zero_mod]

theorem writeHeader_out (m : Mem) {curr last size x : ℕ} (h : x < curr ∨ curr + 32 ≤ x) :
    writeHeader m curr last size x = m x := by
  simp only [writeHeader]
  rw [setPrev_out _ _ _ h, setNext_out _ _ _ h, setSize_out _ _ _ h, setIsFree_out _ _ _ h]

/-- The first block. -/
theorem Layout.append_nil (h : Layout brk₀ s []) (hbrk : s.brk + (size + sizeofMetadata) < 2 ^ 64)
    {s' : State} (hs : s' = ⟨writeHeader s.mem s.brk 0 size, s.brk, s.brk + (size + sizeofMetadata)⟩) :
    Layout brk₀ s' [s.brk] ∧ Taken s s' [] [s.brk] size s.brk := by
  have hpos := h.pos
  have hE := h.empty rfl
  have hnew : hdr s'.mem s.brk = ⟨size, false, 0, 0⟩ := by
    rw [hs, hdr_writeHeader, Nat.mod_eq_of_lt (show size < 2 ^ 64 by omega), Nat.zero_mod]
  have hlen : s.brk + blockLen s'.mem s.brk = s'.brk := by
    rw [blockLen, hnew, hs, add_comm sizeofMetadata]
  have hhead : s'.head = s.brk := by rw [hs]
  refine ⟨⟨h.pos, by rw [hs]; exact hbrk, ?_, fun _ => ?_, by simp⟩, ?_⟩
  · rw [hhead, ← hlen]
    exact Contig.mk_singleton (by omega) (by rw [hnew])
  · rw [hhead, hnew]
    exact ⟨hE, rfl⟩
  · exact {
      sub := List.nil_subset _
      mem := List.mem_singleton_self _
      old_or_new := fun b hb => .inr (List.mem_singleton.mp hb)
      wasFree := fun ha => absurd ha List.not_mem_nil
      fits := by rw [hnew]
      used := by rw [hnew]
      sizes := fun b hb => absurd hb List.not_mem_nil
      marks := fun b hb => absurd hb List.not_mem_nil
      frame := fun x hx _ => by
        rw [hs]
        exact writeHeader_out _ (hx s.brk (List.mem_singleton_self _)) }

/-- The headers after a block is linked in after `z`: that of the new block, that of `z` with its link,
and the others as they were. -/
theorem Layout.hdr_append {z : ℕ} (h : Layout brk₀ s (l ++ [z]))
    (hbrk : s.brk + (size + sizeofMetadata) < 2 ^ 64) {m : Mem}
    (hm : m = setNext (writeHeader s.mem s.brk z size) z s.brk) :
    hdr m s.brk = ⟨size, false, 0, z⟩ ∧ hdr m z = { hdr s.mem z with next := s.brk } ∧
      ∀ b ∈ l, hdr m b = hdr s.mem b := by
  have hz : z ∈ l ++ [z] := by simp
  have hlow : ∀ b ∈ l ++ [z], b + 32 ≤ s.brk := fun b hb => by
    have := h.le_brk hb
    unfold sizeofMetadata at this
    omega
  have hzlt := hlow z hz
  have hold : ∀ b ∈ l ++ [z], hdr (writeHeader s.mem s.brk z size) b = hdr s.mem b :=
    fun b hb => hdr_congr fun x _ hx => writeHeader_out _ (.inl (hx.trans_le (hlow b hb)))
  subst hm
  refine ⟨?_, ?_, fun b hb => ?_⟩
  · rw [show hdr (setNext _ z s.brk) s.brk = hdr (writeHeader s.mem s.brk z size) s.brk from
      hdr_congr fun x hx _ => setNext_out _ _ _ (.inr (hzlt.trans hx)), hdr_writeHeader,
      Nat.mod_eq_of_lt (show size < 2 ^ 64 by omega), Nat.mod_eq_of_lt (show z < 2 ^ 64 by omega)]
  · rw [hdr_setNext, hold z hz, Nat.mod_eq_of_lt h.top]
  · have hbz : b ≠ z := by
      have := (List.pairwise_append.mp h.blocks.sorted).2.2 b hb z (by simp)
      omega
    rw [← hold b (List.mem_append_left _ hb)]
    exact h.hdr_eq_of_ne hz (List.mem_append_left _ hb) hbz fun x hx => setNext_out _ _ _ hx

/-- A further block, after `z`. -/
theorem Layout.append_snoc {z : ℕ} (h : Layout brk₀ s (l ++ [z]))
    (hbrk : s.brk + (size + sizeofMetadata) < 2 ^ 64) {s' : State}
    (hs : s' = ⟨setNext (writeHeader s.mem s.brk z size) z s.brk, s.head,
      s.brk + (size + sizeofMetadata)⟩) :
    Layout brk₀ s' (l ++ [z] ++ [s.brk]) ∧
      Taken s s' (l ++ [z]) (l ++ [z] ++ [s.brk]) size s.brk := by
  obtain ⟨hnew, hlast, hold⟩ := h.hdr_append hbrk (show s'.mem = _ by rw [hs])
  -- only the link of `z` is new
  have hfields : ∀ b ∈ l ++ [z], (hdr s'.mem b).size = (hdr s.mem b).size ∧
      (hdr s'.mem b).prev = (hdr s.mem b).prev ∧ (hdr s'.mem b).isFree = (hdr s.mem b).isFree := by
    intro b hb
    rcases List.mem_append.mp hb with hb | hb
    · rw [hold b hb]
      exact ⟨rfl, rfl, rfl⟩
    · rw [List.mem_singleton.mp hb, hlast]
      exact ⟨rfl, rfl, rfl⟩
  have hhead : s'.head = s.head := by rw [hs]
  have hlen : s.brk + blockLen s'.mem s.brk = s'.brk := by
    rw [blockLen, hnew, hs, add_comm sizeofMetadata]
  refine ⟨⟨h.pos, by rw [hs]; exact hbrk, ?_, fun _ => ?_, by simp⟩, ?_⟩
  · rw [hhead, ← hlen]
    exact h.blocks.push (fun b _ => blockLen_pos _ b) (by rw [hnew]) (by rw [hnew]) (by rw [hlast])
      (fun b hb => by rw [hold b hb]) (fun b hb => (hfields b hb).2.1)
      fun b hb => by rw [blockLen, blockLen, (hfields b hb).1]
  · rw [hhead, (hfields _ (h.head_mem (by simp))).2.1]
    exact h.first (by simp)
  · exact {
      sub := List.subset_append_left _ _
      mem := by simp
      old_or_new := fun b hb => by simpa [or_assoc] using hb
      wasFree := fun ha => absurd (h.le_brk ha) (by unfold sizeofMetadata; omega)
      fits := by rw [hnew]
      used := by rw [hnew]
      sizes := fun b hb => (hfields b hb).1
      marks := fun b hb _ => (hfields b hb).2.2
      frame := fun x hx _ => by
        rw [hs]
        exact (setNext_out _ _ _ (hx z (by simp))).trans (writeHeader_out _ (hx s.brk (by simp))) }

theorem Layout.malloc_of_not_fits (h : Layout brk₀ s l) (ok : Bool)
    (hf : ∀ a ∈ l, ¬ Fits s.mem size a) :
    Returns (fun n => malloc ok n s size)
      (match sbrk ok s (size + sizeofMetadata) with
        | none => (s, 0)
        | some (s₁, curr) => (appendBlock s₁ curr (l.getLastD s.head) size, curr + sizeofMetadata)) := by
  refine ⟨l.length + 1, fun n hn => ?_⟩
  have hnone : l.find? (Fits s.mem size) = none := List.find?_eq_none.mpr hf
  simp only [malloc, findBlock_spec h.blocks.linked hn, hnone, Outcome.ret_bind]
  rcases sbrk ok s (size + sizeofMetadata) with _ | ⟨s₁, curr⟩ <;> rfl

/-- **A new block is put at the end.** -/
theorem Layout.extend (h : Layout brk₀ s l) (hbrk : s.brk + (size + sizeofMetadata) < 2 ^ 64)
    (hf : ∀ a ∈ l, ¬ Fits s.mem size a) :
    ∃ s', Returns (fun n => Malloc2.malloc true n s size) (s', s.brk + sizeofMetadata) ∧
      s'.brk = s.brk + (size + sizeofMetadata) ∧ Layout brk₀ s' (l ++ [s.brk]) ∧
      Taken s s' l (l ++ [s.brk]) size s.brk := by
  have hr := h.malloc_of_not_fits true hf
  rw [sbrk, if_pos ⟨rfl, hbrk⟩] at hr
  refine ⟨_, hr, ?_⟩
  rcases List.eq_nil_or_concat l with rfl | ⟨l, z, rfl⟩
  · have hhead : s.head = 0 := h.blocks.linked
    simp only [appendBlock, hhead, if_pos, List.getLastD_nil]
    exact ⟨trivial, h.append_nil hbrk rfl⟩
  · rw [List.concat_eq_append] at h ⊢
    have hhead : s.head ≠ 0 := by
      rw [(h.first (by simp)).1]
      exact h.pos.ne'
    simp only [appendBlock, if_neg hhead, List.getLastD_concat]
    exact ⟨trivial, h.append_snoc hbrk rfl⟩

/-- **`malloc` returns `NULL` and changes nothing, or takes a block.** -/
theorem Layout.malloc (h : Layout brk₀ s l) (ok : Bool) (size : ℕ) :
    Returns (fun n => malloc ok n s size) (s, 0) ∨
      ∃ s' l' a, Returns (fun n => Malloc2.malloc ok n s size) (s', a + sizeofMetadata) ∧
        Layout brk₀ s' l' ∧ Taken s s' l l' size a := by
  cases hf : l.find? (Fits s.mem size) with
  | some a =>
    have ha := List.mem_of_find?_eq_some hf
    have hfit : (hdr s.mem a).isFree = true ∧ size ≤ (hdr s.mem a).size := by
      simpa [Fits] using List.find?_some hf
    refine .inr ⟨_, l, a, ⟨l.length + 1, fun n hn => ?_⟩, h.mark ha false,
      h.taken_of_mem ha hfit.1 hfit.2⟩
    simp only [Malloc2.malloc, findBlock_spec h.blocks.linked hn, hf, Outcome.ret_bind]
  | none =>
    have hf' := List.find?_eq_none.mp hf
    by_cases hok : ok = true ∧ s.brk + (size + sizeofMetadata) < 2 ^ 64
    · obtain ⟨rfl, hbrk⟩ := hok
      obtain ⟨s', hr, -, hl, ht⟩ := h.extend hbrk hf'
      exact .inr ⟨s', _, _, hr, hl, ht⟩
    · have hr := h.malloc_of_not_fits ok hf'
      rw [sbrk, if_neg hok] at hr
      exact .inl hr

/-- The payload of the new block may be written. -/
theorem Taken.payload {s' : State} {l' : List ℕ} {m : Mem} (h : Taken s s' l l' size a)
    (hl : Layout brk₀ s' l') (hm : ∀ x, ¬ InPayload s'.mem a x → m x = s'.mem x) :
    Layout brk₀ { s' with mem := m } l' ∧ Taken s { s' with mem := m } l l' size a := by
  have hh : ∀ b ∈ l', hdr m b = hdr s'.mem b := fun b hb =>
    hdr_eq_of_offHeaders hb fun x hx => hm x fun hp => hx (hl.offHeaders h.mem hp)
  refine ⟨hl.of_headers hh, h.sub, h.mem, h.old_or_new, h.wasFree, ?_, ?_, fun b hb => ?_,
    fun b hb hba => ?_, fun x hx hp => ?_⟩
  · show size ≤ (hdr m a).size
    rw [hh a h.mem]
    exact h.fits
  · show (hdr m a).isFree = false
    rw [hh a h.mem]
    exact h.used
  · show (hdr m b).size = _
    rw [hh b (h.sub hb)]
    exact h.sizes b hb
  · show (hdr m b).isFree = _
    rw [hh b (h.sub hb)]
    exact h.marks b hb hba
  · have hp' : ¬ InPayload s'.mem a x := by
      rw [InPayload, ← hh a h.mem]
      exact hp
    exact (hm x hp').trans (h.frame x hx hp')

end Malloc

end OsHomework.Malloc2
