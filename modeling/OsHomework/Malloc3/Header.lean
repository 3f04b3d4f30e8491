import OsHomework.Lib.ByteMem

/-!
# `malloc_3`: block headers in memory

`MallocMetadata` is 40 bytes long: the fields sit at the offsets the compiler gives them, and a
read of a header decodes whatever bytes are there, be they a header or payload.

* `hdr m a`: the header read at address `a`; one setter for each field;
* `hdr_setNext` and its siblings: what a field store does to the header at the same address;
* `slots base m`: the headers at the addresses `base + 128 * i`. They do not overlap, so a field
  store at one of them is an update of `slots` there (`slots_setNext` and its siblings), and
  `slots_congr` says which bytes `slots` reads.
-/

set_option autoImplicit false

namespace OsHomework.Malloc3

/-- The header of a block. -/
structure MallocMetadata where
  cookie : ℕ
  size : ℕ
  isFree : Bool
  isMmap : Bool
  order : ℤ
  next : ℕ
  prev : ℕ
  deriving DecidableEq, Repr

theorem self_with_prev (h : MallocMetadata) : h = { h with prev := h.prev } := rfl

/-- `sizeof(MallocMetadata)`. -/
def sizeofMetadata : ℕ := 40

/-- `START_SIZE`: the smallest block, header included. -/
def startSize : ℕ := 128

/-- A 32-bit word read as `int`. -/
def toInt32 (n : ℕ) : ℤ := if n < 2 ^ 31 then n else n - 2 ^ 32

/-- The 32-bit word of an `int`. -/
def ofInt32 (i : ℤ) : ℕ := (i % 2 ^ 32).toNat

theorem toInt32_ofInt32 {i : ℤ} (h₁ : -2 ^ 31 ≤ i) (h₂ : i < 2 ^ 31) :
    toInt32 (ofInt32 i % 2 ^ 32) = i := by
  unfold toInt32 ofInt32
  split_ifs <;> omega

variable (m : Mem) (a : ℕ)

/-- The header read at `a`. -/
def hdr : MallocMetadata where
  cookie := m.load a 4
  size := m.load (a + 8) 8
  isFree := m.load (a + 16) 1 != 0
  isMmap := m.load (a + 17) 1 != 0
  order := toInt32 (m.load (a + 20) 4)
  next := m.load (a + 24) 8
  prev := m.load (a + 32) 8

def setCookie (v : ℕ) : Mem := m.store a 4 v
def setSize (v : ℕ) : Mem := m.store (a + 8) 8 v
def setIsFree (b : Bool) : Mem := m.store (a + 16) 1 b.toNat
def setIsMmap (b : Bool) : Mem := m.store (a + 17) 1 b.toNat
def setOrder (i : ℤ) : Mem := m.store (a + 20) 4 (ofInt32 i)
def setNext (v : ℕ) : Mem := m.store (a + 24) 8 v
def setPrev (v : ℕ) : Mem := m.store (a + 32) 8 v

/-- Assign a whole header. -/
def setHdr (h : MallocMetadata) : Mem :=
  setPrev (setNext (setOrder (setIsMmap (setIsFree (setSize (setCookie m a h.cookie) a h.size)
    a h.isFree) a h.isMmap) a h.order) a h.next) a h.prev

theorem hdr_congr {m m' : Mem} {a : ℕ} (h : ∀ x, a ≤ x → x < a + 40 → m x = m' x) :
    hdr m a = hdr m' a := by
  have key : ∀ {o n}, o + n ≤ 40 → m.load (a + o) n = m'.load (a + o) n := fun hle =>
    Mem.load_congr fun x h₁ h₂ => h x (by omega) (by omega)
  simp only [hdr, key (show 8 + 8 ≤ 40 by norm_num), key (show 16 + 1 ≤ 40 by norm_num),
    key (show 17 + 1 ≤ 40 by norm_num), key (show 20 + 4 ≤ 40 by norm_num),
    key (show 24 + 8 ≤ 40 by norm_num), key (show 32 + 8 ≤ 40 by norm_num),
    show m.load a 4 = m'.load a 4 from key (o := 0) (n := 4) (by norm_num)]

theorem hdr_next_lt : (hdr m a).next < 2 ^ 64 := Mem.load_lt m (a + 24) 8

/-! ## Field stores at the same address -/

theorem hdr_setCookie (v : ℕ) : hdr (setCookie m a v) a = { hdr m a with cookie := v % 2 ^ 32 } := by
  simp [hdr, setCookie, Mem.load_store_same, Mem.load_store_disjoint]

theorem hdr_setSize (v : ℕ) : hdr (setSize m a v) a = { hdr m a with size := v % 2 ^ 64 } := by
  simp [hdr, setSize, Mem.load_store_same, Mem.load_store_disjoint]

theorem hdr_setIsFree (b : Bool) : hdr (setIsFree m a b) a = { hdr m a with isFree := b } := by
  cases b <;> simp [hdr, setIsFree, Mem.load_store_same, Mem.load_store_disjoint]

theorem hdr_setIsMmap (b : Bool) : hdr (setIsMmap m a b) a = { hdr m a with isMmap := b } := by
  cases b <;> simp [hdr, setIsMmap, Mem.load_store_same, Mem.load_store_disjoint]

theorem hdr_setOrder (i : ℤ) :
    hdr (setOrder m a i) a = { hdr m a with order := toInt32 (ofInt32 i % 2 ^ 32) } := by
  simp [hdr, setOrder, Mem.load_store_same, Mem.load_store_disjoint]

theorem hdr_setNext (v : ℕ) : hdr (setNext m a v) a = { hdr m a with next := v % 2 ^ 64 } := by
  simp [hdr, setNext, Mem.load_store_same, Mem.load_store_disjoint]

theorem hdr_setPrev (v : ℕ) : hdr (setPrev m a v) a = { hdr m a with prev := v % 2 ^ 64 } := by
  simp [hdr, setPrev, Mem.load_store_same, Mem.load_store_disjoint]

/-! ## Field stores elsewhere -/

variable {x : ℕ}

theorem setCookie_out (v : ℕ) (h : x < a ∨ a + 40 ≤ x) : setCookie m a v x = m x :=
  Mem.store_out (by omega)

theorem setSize_out (v : ℕ) (h : x < a ∨ a + 40 ≤ x) : setSize m a v x = m x :=
  Mem.store_out (by omega)

theorem setIsFree_out (b : Bool) (h : x < a ∨ a + 40 ≤ x) : setIsFree m a b x = m x :=
  Mem.store_out (by omega)

theorem setIsMmap_out (b : Bool) (h : x < a ∨ a + 40 ≤ x) : setIsMmap m a b x = m x :=
  Mem.store_out (by omega)

theorem setOrder_out (i : ℤ) (h : x < a ∨ a + 40 ≤ x) : setOrder m a i x = m x :=
  Mem.store_out (by omega)

theorem setNext_out (v : ℕ) (h : x < a ∨ a + 40 ≤ x) : setNext m a v x = m x :=
  Mem.store_out (by omega)

theorem setPrev_out (v : ℕ) (h : x < a ∨ a + 40 ≤ x) : setPrev m a v x = m x :=
  Mem.store_out (by omega)

/-! ## Headers at multiples of the smallest block -/

theorem hdr_of_ne {m m' : Mem} {a x : ℕ} (ha : startSize ∣ a) (hx : startSize ∣ x) (hne : x ≠ a)
    (hm : ∀ y, y < a ∨ a + 40 ≤ y → m' y = m y) : hdr m' x = hdr m x := by
  obtain ⟨i, rfl⟩ := ha
  obtain ⟨j, rfl⟩ := hx
  apply hdr_congr
  intro y h₁ h₂
  apply hm
  have hij : j ≠ i := fun e => hne (by rw [e])
  unfold startSize at *
  omega

/-- The headers at `base + 128 * i`. -/
def slots (base : ℕ) (m : Mem) : ℕ → MallocMetadata := fun i => hdr m (base + startSize * i)

variable {m}

theorem slots_congr {m' : Mem} {base i : ℕ}
    (h : ∀ x, base + startSize * i ≤ x → x < base + startSize * i + 40 → m x = m' x) :
    slots base m i = slots base m' i := hdr_congr h

/-- **A write inside one header is an update of the slots there.** -/
theorem slots_update {m' : Mem} {base i : ℕ}
    (h : ∀ x, x < base + startSize * i ∨ base + startSize * i + 40 ≤ x → m' x = m x) :
    slots base m' = Function.update (slots base m) i (hdr m' (base + startSize * i)) := by
  funext j
  rw [Function.update_apply]
  split_ifs with hj
  · rw [hj]; rfl
  · refine slots_congr fun x h₁ h₂ => h x ?_
    rcases Nat.lt_or_gt_of_ne hj with hlt | hlt <;> unfold startSize at * <;> omega

variable (m) (base i : ℕ)

theorem slots_setCookie (v : ℕ) : slots base (setCookie m (base + startSize * i) v) =
    Function.update (slots base m) i { slots base m i with cookie := v % 2 ^ 32 } := by
  rw [slots_update fun x hx => setCookie_out m _ v hx, hdr_setCookie]; rfl

theorem slots_setSize (v : ℕ) : slots base (setSize m (base + startSize * i) v) =
    Function.update (slots base m) i { slots base m i with size := v % 2 ^ 64 } := by
  rw [slots_update fun x hx => setSize_out m _ v hx, hdr_setSize]; rfl

theorem slots_setIsFree (b : Bool) : slots base (setIsFree m (base + startSize * i) b) =
    Function.update (slots base m) i { slots base m i with isFree := b } := by
  rw [slots_update fun x hx => setIsFree_out m _ b hx, hdr_setIsFree]; rfl

theorem order_setIsFree (b : Bool) :
    (slots base (setIsFree m (base + startSize * i) b) i).order = (slots base m i).order := by
  rw [slots_setIsFree, Function.update_self]

theorem size_setIsFree (b : Bool) :
    (slots base (setIsFree m (base + startSize * i) b) i).size = (slots base m i).size := by
  rw [slots_setIsFree, Function.update_self]

theorem slots_setIsMmap (b : Bool) : slots base (setIsMmap m (base + startSize * i) b) =
    Function.update (slots base m) i { slots base m i with isMmap := b } := by
  rw [slots_update fun x hx => setIsMmap_out m _ b hx, hdr_setIsMmap]; rfl

theorem slots_setOrder (o : ℤ) : slots base (setOrder m (base + startSize * i) o) =
    Function.update (slots base m) i
      { slots base m i with order := toInt32 (ofInt32 o % 2 ^ 32) } := by
  rw [slots_update fun x hx => setOrder_out m _ o hx, hdr_setOrder]; rfl

theorem slots_setNext (v : ℕ) : slots base (setNext m (base + startSize * i) v) =
    Function.update (slots base m) i { slots base m i with next := v % 2 ^ 64 } := by
  rw [slots_update fun x hx => setNext_out m _ v hx, hdr_setNext]; rfl

theorem slots_setPrev (v : ℕ) : slots base (setPrev m (base + startSize * i) v) =
    Function.update (slots base m) i { slots base m i with prev := v % 2 ^ 64 } := by
  rw [slots_update fun x hx => setPrev_out m _ v hx, hdr_setPrev]; rfl

end OsHomework.Malloc3
