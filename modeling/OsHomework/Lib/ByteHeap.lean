import OsHomework.Lib.ByteMem
import OsHomework.Lib.Run

/-!
# What an allocator is for

A client that allocates has a number of byte arrays, each under a pointer of its own. It does not see addresses
otherwise: an array does not change but when it is written to.

* `ByteHeap`: the arrays in use; `ByteHeap.Event`, **`ByteHeap.Step`**: what a client does, and what it is promised;
* `Step.keeps`: a step keeps the arrays that it does not touch; **`keeps_of_refines`**: so does every run of a system
  that refines the heap;
* `ByteHeap.image`: the heap that a memory holds, given the pointers in use and the lengths of their blocks;
  `Step.of_alloc`, `Step.of_free`, `Step.of_realloc`, `Step.of_write`: the rules for an implementation, which has to
  show that its blocks do not overlap, and which bytes it leaves alone.
-/

set_option autoImplicit false

namespace OsHomework

/-- The arrays in use. -/
abbrev ByteHeap := ℕ → Option (List UInt8)

namespace ByteHeap

/-- The heap before the first call. -/
def empty : ByteHeap := fun _ => none

/-- A call of the client with its result, or a write into an array. -/
inductive Event where
  | alloc (n p : ℕ)
  | calloc (n p : ℕ)
  | free (p : ℕ)
  | realloc (p n q : ℕ)
  | write (p i : ℕ) (v : UInt8)

/-- **What a client is promised.** An array returned is new and large enough, and one that is asked for with zeros
begins with them. A call may fail, and then nothing changes. -/
inductive Step (H : ByteHeap) : Event → ByteHeap → Prop
  | allocFails (n : ℕ) : Step H (.alloc n 0) H
  | callocFails (n : ℕ) : Step H (.calloc n 0) H
  | reallocFails (p n : ℕ) : Step H (.realloc p n 0) H
  | alloc {n p : ℕ} {l : List UInt8} (hp : p ≠ 0) (hnew : H p = none) (hn : n ≤ l.length) :
    Step H (.alloc n p) (Function.update H p (some l))
  | calloc {n p : ℕ} {l : List UInt8} (hp : p ≠ 0) (hnew : H p = none) (hn : n ≤ l.length)
    (hzero : l.take n = List.replicate n 0) : Step H (.calloc n p) (Function.update H p (some l))
  | freeNull : Step H (.free 0) H
  | free {p : ℕ} {l : List UInt8} (hp : H p = some l) : Step H (.free p) (Function.update H p none)
  | reallocNull {n q : ℕ} {l : List UInt8} (hq : q ≠ 0) (hnew : H q = none) (hn : n ≤ l.length) :
    Step H (.realloc 0 n q) (Function.update H q (some l))
  | realloc {p n q : ℕ} {l l' : List UInt8} (hq : q ≠ 0) (hp : H p = some l) (hnew : q ≠ p → H q = none)
    (hl : l <+: l') (hn : n ≤ l'.length) :
    Step H (.realloc p n q) (Function.update (Function.update H p none) q (some l'))
  | write {p i : ℕ} {v : UInt8} {l : List UInt8} (hp : H p = some l) (hi : i < l.length) :
    Step H (.write p i v) (Function.update H p (some (l.set i v)))

/-- The event changes the array of length `n` at `p`. -/
def Event.Touches (p n : ℕ) : Event → Prop
  | .alloc _ _ | .calloc _ _ => False
  | .free q | .realloc q _ _ => q = p
  | .write q i _ => q = p ∧ i < n

section Steps

variable {H H' : ByteHeap} {e : Event} {es : List Event} {p : ℕ} {l : List UInt8}

theorem Step.keeps (h : Step H e H') (hp : H p = some l) (he : ¬ e.Touches p l.length) :
    H' p = some l := by
  have hne : ∀ {q}, H q = none → p ≠ q := by
    rintro q hq rfl
    rw [hq] at hp
    cases hp
  cases h with
  | allocFails | callocFails | reallocFails | freeNull => exact hp
  | alloc _ hnew | calloc _ hnew | reallocNull _ hnew => rw [Function.update_of_ne (hne hnew), hp]
  | free =>
    rw [Function.update_of_ne, hp]
    exact fun heq => he heq.symm
  | @write q i v l' hq hi =>
    rw [Function.update_of_ne, hp]
    rintro rfl
    rw [hp] at hq
    exact he ⟨rfl, Option.some.inj hq ▸ hi⟩
  | @realloc p' n q _ _ _ _ hnew =>
    have hpp' : p ≠ p' := fun heq => he heq.symm
    by_cases hq : q = p'
    · rw [hq, Function.update_of_ne hpp', Function.update_of_ne hpp', hp]
    · rw [Function.update_of_ne (hne (hnew hq)), Function.update_of_ne hpp', hp]

/-- **An array stays as it is** in every run of a system that refines the heap, if no step of the run touches it. -/
theorem keeps_of_refines {S L : Type} {step : S → L → S → Prop} {I : S → Prop} {f : S → ByteHeap} {R : L → Event → Prop}
    {s t : S} {ls : List L} (hr : Run step s ls t) (hs : I s)
    (hstep : ∀ t c u, I t → step t c u → I u ∧ ∃ e, R c e ∧ Step (f t) e (f u)) (hp : f s p = some l)
    (hno : ∀ c ∈ ls, ∀ e, R c e → ¬ e.Touches p l.length) : f t p = some l := by
  have hinv : I t ∧ f t p = some l := by
    induction hr with
    | nil => exact ⟨hs, hp⟩
    | snoc _ hl ih =>
      obtain ⟨hi, hfp⟩ := ih fun c hc => hno c (List.mem_append_left _ hc)
      obtain ⟨hi', e, he, hstep⟩ := hstep _ _ _ hi hl
      exact ⟨hi', hstep.keeps hfp (hno _ (by simp) e he)⟩
  exact hinv.2

end Steps

/-! ## The heap in a memory -/

/-- The `n` bytes at `p`. -/
def bytes (m : Mem) (p n : ℕ) : List UInt8 := (List.range n).map fun i => m (p + i)

/-- The heap that a memory holds: the pointers in use, and the lengths of their blocks. -/
def image (m : Mem) (len : ℕ → ℕ) (live : List ℕ) : ByteHeap := fun p =>
  if p ∈ live then some (bytes m p (len p)) else none

section Image

variable {m m' : Mem} {len len' : ℕ → ℕ} {live : List ℕ} {p q n i : ℕ} {v : UInt8}

@[simp] theorem length_bytes : (bytes m p n).length = n := by simp [bytes]

theorem bytes_congr (h : ∀ i < n, m' (p + i) = m (p + i)) : bytes m' p n = bytes m p n :=
  List.map_congr_left fun i hi => h i (List.mem_range.mp hi)

theorem image_mem (h : p ∈ live) : image m len live p = some (bytes m p (len p)) := if_pos h

theorem image_not_mem (h : p ∉ live) : image m len live p = none := if_neg h

theorem image_eq_bytes (h : image m' len' live p = some (bytes m p n)) :
    p ∈ live ∧ len' p = n ∧ ∀ i < n, m' (p + i) = m (p + i) := by
  by_cases hp : p ∈ live
  · rw [image_mem hp] at h
    have hb := Option.some.inj h
    have hlen : len' p = n := by simpa using congrArg List.length hb
    refine ⟨hp, hlen, fun i hi => ?_⟩
    rw [hlen] at hb
    exact List.map_inj_left.mp hb i (List.mem_range.mpr hi)
  · rw [image_not_mem hp] at h
    cases h

/-- The blocks of `live` keep their lengths and their bytes. -/
def Keeps (m m' : Mem) (len len' : ℕ → ℕ) (live : List ℕ) : Prop :=
  ∀ p ∈ live, len' p = len p ∧ ∀ i < len p, m' (p + i) = m (p + i)

theorem Keeps.refl (m : Mem) (len : ℕ → ℕ) (live : List ℕ) : Keeps m m len len live := fun _ _ => ⟨rfl, fun _ _ => rfl⟩

theorem Keeps.mono {live' : List ℕ} (h : Keeps m m' len len' live) (hsub : live' ⊆ live) : Keeps m m' len len' live' :=
  fun p hp => h p (hsub hp)

theorem Keeps.trans {m'' : Mem} {len'' : ℕ → ℕ} (h : Keeps m m' len len' live) (h' : Keeps m' m'' len' len'' live) :
    Keeps m m'' len len'' live := by
  intro p hp
  obtain ⟨hlen, hb⟩ := h p hp
  obtain ⟨hlen', hb'⟩ := h' p hp
  exact ⟨hlen'.trans hlen, fun i hi => (hb' i (hlen ▸ hi)).trans (hb i hi)⟩

theorem Keeps.image (h : Keeps m m' len len' live) : image m' len' live = image m len live := by
  funext p
  by_cases hp : p ∈ live
  · rw [image_mem hp, image_mem hp, (h p hp).1, bytes_congr (h p hp).2]
  · rw [image_not_mem hp, image_not_mem hp]

theorem image_cons (p : ℕ) :
    image m len (p :: live) = Function.update (image m len live) p (some (bytes m p (len p))) := by
  funext q
  by_cases hq : q = p
  · rw [hq, Function.update_self, image_mem List.mem_cons_self]
  · rw [Function.update_of_ne hq]
    simp [image, hq]

theorem image_alloc (h : Keeps m m' len len' live) :
    image m' len' (p :: live) = Function.update (image m len live) p (some (bytes m' p (len' p))) := by
  rw [image_cons, h.image]

theorem image_erase (hnd : live.Nodup) (p : ℕ) :
    image m len (live.erase p) = Function.update (image m len live) p none := by
  funext q
  by_cases hq : q = p
  · rw [hq, Function.update_self, image_not_mem hnd.not_mem_erase]
  · rw [Function.update_of_ne hq]
    simp [image, List.mem_erase_of_ne hq]

theorem image_free (h : Keeps m m' len len' (live.erase p)) (hnd : live.Nodup) :
    image m' len' (live.erase p) = Function.update (image m len live) p none := by
  rw [h.image, image_erase hnd]

theorem bytes_update (n i : ℕ) (v : UInt8) :
    bytes (Function.update m (p + i) v) p n = (bytes m p n).set i v := by
  apply List.ext_getElem
  · simp
  · intro j hj hj'
    rw [length_bytes] at hj
    by_cases hij : i = j
    · simp [bytes, hij]
    · have hne : p + j ≠ p + i := by omega
      simp only [bytes, List.getElem_map, List.getElem_range, List.getElem_set, hij, if_false]
      exact Function.update_of_ne hne _ _

/-- **A byte of a block is written**, and it is in no other one. -/
theorem image_write (hp : p ∈ live) (hlen : ∀ q ∈ live, len' q = len q)
    (hapart : ∀ q ∈ live, q ≠ p → ∀ j < len q, q + j ≠ p + i) :
    image (Function.update m (p + i) v) len' live =
      Function.update (image m len live) p (some ((bytes m p (len p)).set i v)) := by
  funext q
  by_cases hq : q = p
  · rw [hq, Function.update_self, image_mem hp, hlen p hp, bytes_update]
  · rw [Function.update_of_ne hq]
    by_cases hmem : q ∈ live
    · rw [image_mem hmem, image_mem hmem, hlen q hmem,
        bytes_congr fun j hj => Function.update_of_ne (hapart q hmem hq j hj) _ _]
    · rw [image_not_mem hmem, image_not_mem hmem]

theorem prefix_of_copied (h : n ≤ len p) (hb : ∀ i < n, m' (p + i) = m (q + i)) :
    bytes m q n <+: bytes m' p (len p) := by
  refine ⟨(bytes m' p (len p)).drop n, ?_⟩
  have htake : (bytes m' p (len p)).take n = bytes m q n := by
    rw [bytes, ← List.map_take, List.take_range, Nat.min_eq_left h]
    exact List.map_congr_left fun i hi => hb i (List.mem_range.mp hi)
  rw [← htake, List.take_append_drop]

theorem take_bytes_zero (h : n ≤ len p) (hb : ∀ i < n, m (p + i) = 0) :
    (bytes m p (len p)).take n = List.replicate n 0 := by
  rw [bytes, ← List.map_take, List.take_range, Nat.min_eq_left h]
  refine List.eq_replicate_iff.mpr ⟨by simp, fun b hmem => ?_⟩
  obtain ⟨i, hi, rfl⟩ := List.mem_map.mp hmem
  exact hb i (List.mem_range.mp hi)

/-! ## The rules for an implementation -/

variable {r : ℕ}

theorem Step.of_alloc (hr : r ≠ 0) (hnew : r ∉ live) (hn : n ≤ len' r) (hk : Keeps m m' len len' live) :
    Step (ByteHeap.image m len live) (.alloc n r) (ByteHeap.image m' len' (r :: live)) := by
  rw [image_alloc hk]
  exact .alloc hr (image_not_mem hnew) (by rwa [length_bytes])

theorem Step.of_calloc (hr : r ≠ 0) (hnew : r ∉ live) (hn : n ≤ len' r) (hk : Keeps m m' len len' live)
    (hzero : ∀ i < n, m' (r + i) = 0) :
    Step (ByteHeap.image m len live) (.calloc n r) (ByteHeap.image m' len' (r :: live)) := by
  rw [image_alloc hk]
  exact .calloc hr (image_not_mem hnew) (by rwa [length_bytes]) (take_bytes_zero hn hzero)

theorem Step.of_free (hnd : live.Nodup) (hp : p ∈ live) (hk : Keeps m m' len len' (live.erase p)) :
    Step (ByteHeap.image m len live) (.free p) (ByteHeap.image m' len' (live.erase p)) := by
  rw [image_free hk hnd]
  exact .free (image_mem hp)

/-- A reallocation of `NULL` is an allocation. -/
theorem Step.of_reallocNull (hr : r ≠ 0) (hnew : r ∉ live) (hn : n ≤ len' r) (hk : Keeps m m' len len' live) :
    Step (ByteHeap.image m len live) (.realloc 0 n r) (ByteHeap.image m' len' (r :: live)) := by
  rw [image_alloc hk]
  exact .reallocNull hr (image_not_mem hnew) (by rwa [length_bytes])

/-- **A reallocation** returns the same block or one that was not in use; its bytes are those of the old one. -/
theorem Step.of_realloc (hr : r ≠ 0) (hnd : live.Nodup) (hp : p ∈ live) (hnew : r ∉ live.erase p) (hn : n ≤ len' r)
    (hgrow : len p ≤ len' r) (hcopy : ∀ i < len p, m' (r + i) = m (p + i)) (hk : Keeps m m' len len' (live.erase p)) :
    Step (ByteHeap.image m len live) (.realloc p n r) (ByteHeap.image m' len' (r :: live.erase p)) := by
  rw [image_alloc hk, image_erase hnd]
  refine .realloc hr (image_mem hp) (fun hne => image_not_mem fun hmem => ?_) (prefix_of_copied hgrow hcopy)
    (by rwa [length_bytes])
  exact hnew ((List.mem_erase_of_ne hne).mpr hmem)

theorem Step.of_write (hp : p ∈ live) (hi : i < len p) (hlen : ∀ q ∈ live, len' q = len q)
    (hapart : ∀ q ∈ live, q ≠ p → ∀ j < len q, q + j ≠ p + i) :
    Step (ByteHeap.image m len live) (.write p i v) (ByteHeap.image (Function.update m (p + i) v) len' live) := by
  rw [image_write hp hlen hapart]
  exact .write (image_mem hp) (by rwa [length_bytes])

end Image

end ByteHeap

end OsHomework
