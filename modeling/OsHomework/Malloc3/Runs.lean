import OsHomework.Lib.Run
import OsHomework.Malloc3.Invariant

/-!
# `malloc_3`: runs of `smalloc`, `scalloc` and `sfree`

A client allocates, releases what it has, and writes into what it has.

* `World`: the allocator, and the pointers the client holds; `call`, `Admissible`, `Step`;
* `MergesQuietly s n addr k`, `QuietFree s p`: merging the block of `p` upwards, `Free` meets no free
  buddy of a smaller order. `UnionIfPossible` tests the mark of the buddy and not its order;
* `WInv`: the arena has a layout whose used blocks, with the mapped ones, are what the client holds.
  **`WInv.step`**, `WInv.progress`;
* `WInv.ri`, `WInv.liveOk`: it gives the representation invariant, and what the client holds does not
  overlap.
-/

set_option autoImplicit false

namespace OsHomework.Malloc3

open Buddy

/-! ## Quiet releases -/

/-- Going up from the order-`k` block at `addr`, at most `n` levels, a free buddy always has the order
of the block that is being merged. -/
def MergesQuietly (s : State) : ℕ → ℕ → ℕ → Prop
  | 0, addr, k =>
    (hdr s.mem (addr ^^^ (startSize * 2 ^ k))).isFree = true →
      (hdr s.mem (addr ^^^ (startSize * 2 ^ k))).order = k
  | n + 1, addr, k =>
    (hdr s.mem (addr ^^^ (startSize * 2 ^ k))).isFree = true →
      (hdr s.mem (addr ^^^ (startSize * 2 ^ k))).order = k ∧
        MergesQuietly s n (min addr (addr ^^^ (startSize * 2 ^ k))) (k + 1)

/-- Releasing `p` merges blocks of equal order only. -/
def QuietFree (s : State) (p : ℕ) : Prop :=
  (hdr s.mem (headerOf p)).isMmap = false →
    MergesQuietly s (maxOrder - (hdr s.mem (headerOf p)).order.toNat) (headerOf p)
      (hdr s.mem (headerOf p)).order.toNat

section Quiet

variable {base : ℕ} {s : State} {B : Layout}

/-- The condition on the headers is the condition on the layout; the induction is on the levels. -/
theorem mergesQuietly_iff (hA : Arena base) (h : Repr base s B none) : ∀ {n a k : ℕ} {c : Cell},
    k + n = maxOrder → B a = some c → c.order ≤ k → 2 ^ k ∣ a →
      (MergesQuietly s n (base + startSize * a) k ↔ Quiet B n a k)
  | n, a, k, c, hn, ha, hc, hdvd => by
    have hT := h.heap.tiles
    have hM : k ≤ 10 := by unfold maxOrder at hn; omega
    obtain ⟨⟨j, f⟩, hz, hj⟩ := hT.exists_buddy_of_le (two_pow_dvd_arenaUnits (by omega)) ha hc hdvd
    have hx := slot_xor (k := k) hA (hT.lt ha) (by omega)
    have hfree : (slots base s.mem (buddy a k)).isFree = f := h.heap.marks hz (by simp)
    have hord : (slots base s.mem (buddy a k)).order = j := (h.heap.hdrs hz).order
    cases n with
    | zero =>
      simp only [MergesQuietly, Quiet, hx, hdr_slot, hfree, hord, hz, Option.some.injEq,
        Cell.mk.injEq]
      constructor
      · rintro h m ⟨rfl, hf⟩
        exact Int.ofNat.inj (h hf)
      · exact fun h hf => by rw [h j ⟨rfl, hf⟩]
    | succ n =>
      obtain ⟨hmin, hmax⟩ := min_buddy hdvd
      have hlow : ∃ d, B (min a (buddy a k)) = some d ∧ d.order ≤ k + 1 := by
        rcases min_choice a (buddy a k) with he | he <;> rw [he]
        · exact ⟨c, ha, by omega⟩
        · exact ⟨_, hz, by simp only at hj ⊢; omega⟩
      obtain ⟨d, hd, hdk⟩ := hlow
      have ih := mergesQuietly_iff hA h (n := n) (by omega) hd hdk hmin
      have hm : min (base + startSize * a) (base + startSize * buddy a k) =
          base + startSize * min a (buddy a k) := by unfold startSize; omega
      simp only [MergesQuietly, Quiet, hx, hdr_slot, hfree, hord, hz, hm, ih, Option.some.injEq,
        Cell.mk.injEq]
      constructor
      · intro h
        exact ⟨fun m hm => Int.ofNat.inj (hm.1 ▸ (h hm.2).1), fun hm => (h hm.2).2⟩
      · rintro ⟨h₁, h₂⟩ hf
        obtain rfl := h₁ j ⟨rfl, hf⟩
        exact ⟨rfl, h₂ ⟨rfl, hf⟩⟩
  termination_by n => n

theorem Inv.quietFree_iff {L : List (ℕ × ℕ)} (h : Inv base s B L) {a k : ℕ} {f : Bool}
    (ha : B a = some ⟨k, f⟩) :
    QuietFree s (base + startSize * a + sizeofMetadata) ↔ Quiet B (maxOrder - k) a k := by
  have hH := h.repr.heap.hdrs ha
  have hM : k ≤ maxOrder := h.repr.heap.tiles.le_max ha
  rw [QuietFree, headerOf_add (h.slot_lt ha), hdr_slot, hH.isMmap, hH.order, Int.toNat_natCast,
    ← mergesQuietly_iff h.arena h.repr (by simp only; omega) ha le_rfl (h.repr.heap.tiles.aligned ha)]
  simp

end Quiet

/-! ## Payloads -/

section Payload

variable {base : ℕ} {s : State} {B : Layout} {L : List (ℕ × ℕ)}

/-- The byte `x` belongs to a payload. -/
def InPayload (base : ℕ) (B : Layout) (L : List (ℕ × ℕ)) (x : ℕ) : Prop :=
  (∃ a c, B a = some c ∧ base + startSize * a + sizeofMetadata ≤ x ∧
    x < base + startSize * (a + 2 ^ c.order)) ∨
  ∃ r ∈ L, r.1 + sizeofMetadata ≤ x ∧ x < r.1 + sizeofMetadata + r.2

/-- A byte of a payload belongs to no header. -/
theorem Inv.payload_out {x : ℕ} (h : Inv base s B L) (hx : InPayload base B L x) :
    (∀ u c, B u = some c → x < base + startSize * u ∨ base + startSize * u + 40 ≤ x) ∧
      ∀ r ∈ L, x < r.1 ∨ r.1 + 40 ≤ x := by
  have hT := h.repr.heap.tiles
  constructor
  · intro u c hu
    rcases hx with ⟨a, d, ha, h₃, h₄⟩ | ⟨r, hr, h₃, h₄⟩
    · by_contra hc
      have hcpos := Nat.two_pow_pos c.order
      obtain rfl : u = a := hT.cover_unique hu ha (u := u) le_rfl (by omega)
        (by unfold startSize sizeofMetadata at *; omega) (by unfold startSize at *; omega)
      unfold sizeofMetadata at h₃
      omega
    · have := (h.maps.fresh hr).arena
      have := hT.lt hu
      unfold startSize sizeofMetadata at *
      omega
  · intro r hr
    rcases hx with ⟨a, d, ha, h₃, h₄⟩ | ⟨r', hr', h₃, h₄⟩
    · have := (h.maps.fresh hr).arena
      have := hT.fits ha
      unfold startSize sizeofMetadata at *
      omega
    · by_cases he : r = r'
      · subst he
        unfold sizeofMetadata at h₃
        omega
      · have := h.maps.apart_of_ne hr hr' he
        unfold Apart sizeofMetadata at *
        omega

/-- **Payloads may be overwritten.** -/
theorem Inv.of_payload {m : Mem} (h : Inv base s B L)
    (hm : ∀ x, ¬ InPayload base B L x → m x = s.mem x) : Inv base { s with mem := m } B L := by
  refine h.of_mem (fun {u c x} hu h₁ h₂ => hm x fun hx => ?_) (fun {r x} hr h₁ h₂ => hm x fun hx => ?_)
  · have := (h.payload_out hx).1 u c hu
    omega
  · have := (h.payload_out hx).2 r hr
    omega

end Payload

/-! ## The client -/

/-- The allocator, and the pointers the client holds. -/
structure World where
  st : State
  live : List ℕ

/-- What the client does; a system call of the allocator is answered by `sys`. -/
inductive Op where
  | smalloc (sys : Sys) (size : ℕ)
  | scalloc (sys : Sys) (num size : ℕ)
  | sfree (p : ℕ)
  | write (x : ℕ) (v : UInt8)

/-- The length of the payload at `p`, from its header. -/
def payloadLen (s : State) (p : ℕ) : ℕ := (hdr s.mem (headerOf p)).size

/-- A pointer that was returned, unless it is `NULL`. -/
def track (p : ℕ) (live : List ℕ) : List ℕ := if p = 0 then live else p :: live

/-- One action of the client. -/
def call (fuel : ℕ) (w : World) : Op → Outcome World
  | .smalloc sys size => do
    let (s, p) ← smalloc sys fuel w.st size
    .ret ⟨s, track p w.live⟩
  | .scalloc sys num size => do
    let (s, p) ← scalloc sys fuel w.st num size
    .ret ⟨s, track p w.live⟩
  | .sfree p => do
    let s ← sfree fuel w.st p
    .ret ⟨s, w.live.erase p⟩
  | .write x v => .ret ⟨{ w.st with mem := Function.update w.st.mem x v }, w.live⟩

/-- What `mmap` may answer to a request of `size` bytes: a region that is not null, addressable, and
disjoint from the arena and from the blocks the client holds. -/
def MmapFresh (w : World) (sys : Sys) (size : ℕ) : Prop :=
  ∀ addr, sys.mmapAddr = some addr → 0 < addr ∧ addr + sizeofMetadata + size < 2 ^ 64 ∧
    (addr + sizeofMetadata + size ≤ w.st.head ∨ w.st.head + 32 * maxSize ≤ addr) ∧
    ∀ p ∈ w.live, p + payloadLen w.st p ≤ addr ∨ addr + sizeofMetadata + size ≤ headerOf p

/-- The client releases only what it holds and writes only there. -/
def Admissible (w : World) : Op → Prop
  | .smalloc sys size => maxSize ≤ size → MmapFresh w sys size
  | .scalloc sys num size => maxSize ≤ num * size % 2 ^ 64 → MmapFresh w sys (num * size % 2 ^ 64)
  | .sfree p => p = 0 ∨ p ∈ w.live
  | .write x _ => ∃ p ∈ w.live, p ≤ x ∧ x < p + payloadLen w.st p

/-- An admissible action that returns. -/
def Step (w : World) (op : Op) (w' : World) : Prop :=
  Admissible w op ∧ Returns (fun n => call n w op) w'

/-- If the action is a release, it is a quiet one. -/
def QuietOp (w : World) : Op → Prop
  | .sfree p => p ≠ 0 → QuietFree w.st p
  | _ => True

theorem settles_call {w : World} {op : Op} : Settles fun n => call n w op := by
  cases op with
  | smalloc sys size => exact settles_malloc.bind fun _ => .const _
  | scalloc sys num size => exact settles_scalloc.bind fun _ => .const _
  | sfree p => exact settles_free.bind fun _ => .const _
  | write x v => exact .const _

/-! ## The invariant of runs -/

/-- The client holds the used blocks of the arena and the mapped blocks, each once. -/
structure Live (base : ℕ) (B : Layout) (L : List (ℕ × ℕ)) (live : List ℕ) : Prop where
  nodup : live.Nodup
  mem : ∀ p, p ∈ live ↔ (∃ a k, B a = some ⟨k, false⟩ ∧ p = base + startSize * a + sizeofMetadata) ∨
    ∃ r ∈ L, p = r.1 + sizeofMetadata

/-- The allocator represents a layout and a list of mapped blocks, and these are what the client
holds. -/
def WInv (base : ℕ) (w : World) : Prop := ∃ B L, Inv base w.st B L ∧ Live base B L w.live

section Steps

variable {base : ℕ} {s : State} {B : Layout} {L : List (ℕ × ℕ)} {live : List ℕ}

theorem Inv.payloadLen_heap (h : Inv base s B L) {a : ℕ} {c : Cell} (ha : B a = some c) :
    payloadLen s (base + startSize * a + sizeofMetadata) = payloadSize c.order := by
  rw [payloadLen, headerOf_add (h.slot_lt ha)]
  exact (h.repr.heap.hdrs ha).size

theorem Inv.map_lt (h : Inv base s B L) {r : ℕ × ℕ} (hr : r ∈ L) : r.1 < 2 ^ 64 := by
  have := (h.maps.fresh hr).fits
  omega

theorem Inv.payloadLen_map (h : Inv base s B L) {r : ℕ × ℕ} (hr : r ∈ L) :
    payloadLen s (r.1 + sizeofMetadata) = r.2 := by
  rw [payloadLen, headerOf_add (h.map_lt hr)]
  exact (h.maps.hdrs hr).size

theorem payload_end {a k : ℕ} : base + startSize * a + sizeofMetadata + payloadSize k =
    base + startSize * (a + 2 ^ k) := by
  have := Nat.two_pow_pos k
  unfold payloadSize startSize sizeofMetadata
  omega

theorem Inv.map_ne_heap (h : Inv base s B L) {r : ℕ × ℕ} {a : ℕ} {c : Cell} (hr : r ∈ L)
    (ha : B a = some c) : r.1 + sizeofMetadata ≠ base + startSize * a + sizeofMetadata := by
  have := (h.maps.fresh hr).arena
  have := h.repr.heap.tiles.lt ha
  unfold startSize sizeofMetadata at *
  omega

/-- The answer of `mmap` is fresh for the mapped blocks, since the client holds them. -/
theorem MmapFresh.freshAnswer {w : World} {sys : Sys} {size : ℕ} (hf : MmapFresh w sys size)
    (hh : w.st.head = base) (h : Maps base w.st.cookie w.st.mem w.st.mmapHead L)
    (hl : ∀ r ∈ L, r.1 + sizeofMetadata ∈ w.live) : FreshAnswer base L sys size := by
  intro addr ha
  obtain ⟨h₁, h₂, h₃, h₄⟩ := hf addr ha
  rw [hh, arena_end] at h₃
  refine ⟨h₁, h₂, h₃, fun r hr => ?_⟩
  have hlt : r.1 < 2 ^ 64 := by
    have := (h.fresh hr).fits
    omega
  have := h₄ _ (hl r hr)
  rwa [payloadLen, headerOf_add hlt, (h.hdrs hr).size] at this

theorem MmapFresh.fresh {w : World} {sys : Sys} {size : ℕ} (hf : MmapFresh w sys size)
    (h : Inv base w.st B L) (hl : Live base B L w.live) : FreshAnswer base L sys size :=
  hf.freshAnswer h.head h.maps fun r hr => (hl.mem _).mpr (.inr ⟨r, hr, rfl⟩)

/-- What `AllocTo` does to the pointers the client holds. -/
theorem Live.alloc {sys : Sys} {size p : ℕ} {B' : Layout} {L' : List (ℕ × ℕ)} {s' : State}
    (hl : Live base B L live) (h : Inv base s B L) (h' : Inv base s' B' L')
    (ha : AllocTo base B L sys size B' L' p) : Live base B' L' (track p live) := by
  have hA := h.arena.pos
  have hT := h.repr.heap.tiles
  cases ha with
  | null => exact hl
  | @heap k j a hk ht =>
    have hne : base + startSize * a + sizeofMetadata ≠ 0 := by omega
    have hn : k + (j - k) = j := Nat.add_sub_cancel' ht.le
    have hused := fun x i => splitTo_used (n := j - k) (k := k) (x := x) (j := i) hT
      (by rw [hn]; exact ht.block)
    rw [track, if_neg hne]
    constructor
    · refine List.nodup_cons.mpr ⟨fun hmem => ?_, hl.nodup⟩
      rcases (hl.mem _).mp hmem with ⟨b, i, hb, he⟩ | ⟨r, hr, he⟩
      · rw [← slot_inj (Nat.add_right_cancel he), ht.block] at hb
        simp at hb
      · exact h.map_ne_heap hr ht.block he.symm
    · intro p
      rw [List.mem_cons, hl.mem]
      constructor
      · rintro (rfl | ⟨b, i, hb, rfl⟩ | hr)
        · exact .inl ⟨a, k, splitTo_self, rfl⟩
        · refine .inl ⟨b, i, (hused b i).mpr (.inr ⟨?_, hb⟩), rfl⟩
          rintro rfl
          rw [ht.block] at hb
          simp at hb
        · exact .inr hr
      · rintro (⟨b, i, hb, rfl⟩ | hr)
        · rcases (hused b i).mp hb with ⟨rfl, -⟩ | ⟨-, hb⟩
          · exact .inl rfl
          · exact .inr (.inl ⟨b, i, hb, rfl⟩)
        · exact .inr (.inr hr)
  | @map addr hmin hf =>
    have hne : addr + sizeofMetadata ≠ 0 := by have := hf.pos; omega
    rw [track, if_neg hne]
    constructor
    · refine List.nodup_cons.mpr ⟨fun hmem => ?_, hl.nodup⟩
      rcases (hl.mem _).mp hmem with ⟨b, i, hb, he⟩ | ⟨r, hr, he⟩
      · exact h'.map_ne_heap (r := (addr, size)) (by simp) hb he
      · exact (hf.apart r hr).ne (Nat.add_right_cancel he).symm
    · intro p
      rw [List.mem_cons, hl.mem]
      constructor
      · rintro (rfl | hb | ⟨r, hr, rfl⟩)
        · exact .inr ⟨(addr, size), by simp, rfl⟩
        · exact .inl hb
        · exact .inr ⟨r, List.mem_append_left _ hr, rfl⟩
      · rintro (hb | ⟨r, hr, rfl⟩)
        · exact .inr (.inl hb)
        · rcases List.mem_append.mp hr with hr | hr
          · exact .inr (.inr ⟨r, hr, rfl⟩)
          · rw [List.mem_singleton.mp hr]
            exact .inl rfl

theorem AllocTo.inPayload {sys : Sys} {size p x : ℕ} {B' : Layout} {L' : List (ℕ × ℕ)}
    (ha : AllocTo base B L sys size B' L' p) (hp : p ≠ 0) (h₁ : p ≤ x) (h₂ : x < p + size) :
    InPayload base B' L' x := by
  cases ha with
  | null => exact absurd rfl hp
  | @heap k j a hk ht =>
    refine .inl ⟨a, ⟨k, false⟩, splitTo_self, h₁, ?_⟩
    have := hk.fits
    rw [← payload_end]
    simp only
    omega
  | @map addr hmin hf => exact .inr ⟨(addr, size), by simp, h₁, h₂⟩

theorem Live.free_map (hl : Live base B L live) (h : Inv base s B L) {r : ℕ × ℕ} (hr : r ∈ L) :
    Live base B (L.erase r) (live.erase (r.1 + sizeofMetadata)) := by
  have hnd : L.Nodup := h.maps.nodup.of_map
  refine ⟨hl.nodup.erase _, fun p => ?_⟩
  rw [hl.nodup.mem_erase_iff, hl.mem]
  constructor
  · rintro ⟨hne, hb | ⟨r', hr', rfl⟩⟩
    · exact .inl hb
    · exact .inr ⟨r', hnd.mem_erase_iff.mpr ⟨fun e => hne (by rw [e]), hr'⟩, rfl⟩
  · rintro (⟨a, k, ha, rfl⟩ | ⟨r', hr', rfl⟩)
    · exact ⟨(h.map_ne_heap hr ha).symm, .inl ⟨a, k, ha, rfl⟩⟩
    · obtain ⟨hne, hr'⟩ := hnd.mem_erase_iff.mp hr'
      exact ⟨fun e => (h.maps.apart_of_ne hr' hr hne).ne (Nat.add_right_cancel e),
        .inr ⟨r', hr', rfl⟩⟩

theorem Live.free_heap (hl : Live base B L live) (h : Inv base s B L) {a k : ℕ}
    (ha : B a = some ⟨k, false⟩) : Live base (release B (maxOrder - k) a k) L
      (live.erase (base + startSize * a + sizeofMetadata)) := by
  have hused := fun x i => release_used (n := maxOrder - k) (x := x) (j := i)
    (h.repr.heap.tiles.aligned ha) ha
  refine ⟨hl.nodup.erase _, fun p => ?_⟩
  rw [hl.nodup.mem_erase_iff, hl.mem]
  constructor
  · rintro ⟨hne, ⟨b, i, hb, rfl⟩ | hr⟩
    · exact .inl ⟨b, i, (hused b i).mpr ⟨fun e => hne (by rw [e]), hb⟩, rfl⟩
    · exact .inr hr
  · rintro (⟨b, i, hb, rfl⟩ | ⟨r, hr, rfl⟩)
    · obtain ⟨hne, hb⟩ := (hused b i).mp hb
      exact ⟨fun e => hne (slot_inj (Nat.add_right_cancel e)), .inl ⟨b, i, hb, rfl⟩⟩
    · exact ⟨h.map_ne_heap hr ha, .inr ⟨r, hr, rfl⟩⟩

end Steps

/-! ## One step -/

section World

variable {base : ℕ} {w : World}

theorem WInv.malloc (h : WInv base w) {sys : Sys} {size : ℕ}
    (hf : maxSize ≤ size → MmapFresh w sys size) :
    ∃ N, ∀ n, N ≤ n → ∃ s p B L, malloc sys n w.st size = .ret (s, p) ∧ Inv base s B L ∧
      Live base B L (track p w.live) ∧ (p ≠ 0 → ∀ x, p ≤ x → x < p + size → InPayload base B L x) := by
  obtain ⟨B, L, hi, hl⟩ := h
  refine ⟨maxOrder + L.length + 1, fun n hn => ?_⟩
  obtain ⟨s, B', L', p, he, hi', -, ha, -⟩ := malloc_spec sys hi (fun hm => (hf hm).fresh hi hl)
    (show maxOrder + L.length < n by omega)
  exact ⟨s, p, B', L', he, hi', hl.alloc hi hi' ha, fun hp x h₁ h₂ => ha.inPayload hp h₁ h₂⟩

/-- **With enough fuel, every admissible quiet action returns and keeps the invariant.** -/
theorem WInv.call (h : WInv base w) {op : Op} (ha : Admissible w op) (hq : QuietOp w op) :
    ∃ N, ∀ n, N ≤ n → ∃ w', call n w op = .ret w' ∧ WInv base w' := by
  cases op with
  | smalloc sys size =>
    obtain ⟨N, hN⟩ := h.malloc ha
    refine ⟨N, fun n hn => ?_⟩
    obtain ⟨s, p, B, L, he, hi, hl, -⟩ := hN n hn
    exact ⟨⟨s, track p w.live⟩, by rw [Malloc3.call, smalloc, he, Outcome.ret_bind], B, L, hi, hl⟩
  | scalloc sys num size =>
    obtain ⟨N, hN⟩ := h.malloc ha
    refine ⟨N, fun n hn => ?_⟩
    obtain ⟨s, p, B, L, he, hi, hl, hp⟩ := hN n hn
    rw [Malloc3.call, scalloc]
    simp only
    split_ifs with hv
    · exact ⟨w, by rw [Outcome.ret_bind, track, if_pos rfl], h⟩
    · rw [he, Outcome.ret_bind]
      simp only
      split_ifs with hp0
      · subst hp0
        exact ⟨⟨s, track 0 w.live⟩, rfl, B, L, hi, hl⟩
      · refine ⟨⟨_, track p w.live⟩, rfl, B, L, hi.of_payload fun x hx => Mem.fill_out ?_, hl⟩
        by_contra hc
        exact hx (hp hp0 x (by omega) (by omega))
  | sfree p =>
    obtain ⟨B, L, hi, hl⟩ := h
    refine ⟨maxOrder + L.length + 1, fun n hn => ?_⟩
    rcases ha with rfl | hmem
    · refine ⟨⟨w.st, w.live.erase 0⟩, rfl, B, L, hi, ?_⟩
      rw [List.erase_of_not_mem]
      · exact hl
      · intro h0
        have := hi.arena.pos
        rcases (hl.mem 0).mp h0 with ⟨a, k, -, he⟩ | ⟨r, -, he⟩ <;> unfold sizeofMetadata at he <;>
          omega
    · rcases (hl.mem p).mp hmem with ⟨a, k, hB, rfl⟩ | ⟨r, hr, rfl⟩
      · have hq' := (hi.quietFree_iff hB).mp (hq (by unfold sizeofMetadata; omega))
        obtain ⟨m, f, he, hi', -⟩ := Malloc3.free_heap hi hB hq' (show maxOrder < n by omega)
        exact ⟨_, by rw [Malloc3.call, sfree, he, Outcome.ret_bind], _, L, hi', hl.free_heap hi hB⟩
      · obtain ⟨m, p, us, he, hi', -⟩ := Malloc3.free_map hi hr (show L.length < n by omega)
        exact ⟨_, by rw [Malloc3.call, sfree, he, Outcome.ret_bind], B, _, hi', hl.free_map hi hr⟩
  | write x v =>
    obtain ⟨B, L, hi, hl⟩ := h
    obtain ⟨p, hp, h₁, h₂⟩ := ha
    refine ⟨0, fun n _ => ⟨_, rfl, B, L, hi.of_payload fun y hy => ?_, hl⟩⟩
    refine Function.update_of_ne (fun e => hy ?_) _ _
    subst e
    rcases (hl.mem p).mp hp with ⟨a, k, hB, rfl⟩ | ⟨r, hr, rfl⟩
    · rw [hi.payloadLen_heap hB, payload_end] at h₂
      exact .inl ⟨a, _, hB, h₁, h₂⟩
    · rw [hi.payloadLen_map hr] at h₂
      exact .inr ⟨r, hr, h₁, h₂⟩

theorem WInv.step (h : WInv base w) {op : Op} {w' : World} (hs : Step w op w') (hq : QuietOp w op) :
    WInv base w' := by
  obtain ⟨ha, N, hN⟩ := hs
  obtain ⟨N', hN'⟩ := h.call ha hq
  obtain ⟨w'', he, hi⟩ := hN' (max N N') (le_max_right _ _)
  rwa [Outcome.ret.inj ((hN (max N N') (le_max_left _ _)).symm.trans he)]

theorem WInv.progress (h : WInv base w) {op : Op} (ha : Admissible w op) (hq : QuietOp w op) :
    ∃ w', Step w op w' := by
  obtain ⟨N, hN⟩ := h.call ha hq
  obtain ⟨w', he, -⟩ := hN N le_rfl
  exact ⟨w', ha, settles_call.returns he⟩

/-! ## Steps whose layout is known -/

theorem step_smalloc {B : Layout} {L : List (ℕ × ℕ)} {k j a size : ℕ} (sys : Sys)
    (h : Inv base w.st B L) (h0 : 0 < size) (hmax : size < maxSize) (hk : LeastOrder size k)
    (ht : Takes B k j a) : ∃ w', Step w (.smalloc sys size) w' ∧
      Inv base w'.st (splitTo B a k (j - k)) L ∧ w'.st.cookie = w.st.cookie ∧
      w'.live = (base + startSize * a + sizeofMetadata) :: w.live := by
  obtain ⟨m, f, he, hi, -⟩ := malloc_heap sys h h0 hmax hk ht (Nat.lt_succ_self maxOrder)
  refine ⟨⟨_, _⟩, ⟨fun hm => absurd hm (by omega), settles_call.returns (n := maxOrder + 1) ?_⟩, hi,
    rfl, rfl⟩
  have hne : base + startSize * a + sizeofMetadata ≠ 0 := by have := h.arena.pos; omega
  simp only [Malloc3.call, smalloc, he, Outcome.ret_bind, track, if_neg hne]

theorem step_smalloc_map {B : Layout} {L : List (ℕ × ℕ)} {addr size : ℕ} {sys : Sys}
    (h : Inv base w.st B L) (hl : Live base B L w.live) (hmin : maxSize ≤ size)
    (hmax : size ≤ maxSizeToAllocate) (hsys : sys.mmapAddr = some addr) (hf : MmapFresh w sys size) :
    ∃ w', Step w (.smalloc sys size) w' ∧ Inv base w'.st B (L ++ [(addr, size)]) ∧
      w'.st.cookie = w.st.cookie ∧ w'.live = (addr + sizeofMetadata) :: w.live := by
  have hfr := hf.fresh h hl addr hsys
  obtain ⟨m, p, he, hi, -⟩ := malloc_map sys h hmin hmax hsys hfr (Nat.lt_succ_self L.length)
  refine ⟨⟨_, _⟩, ⟨fun _ => hf, settles_call.returns (n := L.length + 1) ?_⟩, hi, rfl, rfl⟩
  have hne : addr + sizeofMetadata ≠ 0 := by have := hfr.pos; omega
  simp only [Malloc3.call, smalloc, he, Outcome.ret_bind, track, if_neg hne]

theorem step_sfree {B : Layout} {L : List (ℕ × ℕ)} {k a : ℕ} (h : Inv base w.st B L)
    (ha : B a = some ⟨k, false⟩) (hq : Quiet B (maxOrder - k) a k)
    (hmem : base + startSize * a + sizeofMetadata ∈ w.live) :
    ∃ w', Step w (.sfree (base + startSize * a + sizeofMetadata)) w' ∧
      Inv base w'.st (release B (maxOrder - k) a k) L ∧ w'.st.cookie = w.st.cookie ∧
      w'.live = w.live.erase (base + startSize * a + sizeofMetadata) := by
  obtain ⟨m, f, he, hi, -⟩ := Malloc3.free_heap h ha hq (Nat.lt_succ_self maxOrder)
  refine ⟨⟨_, _⟩, ⟨.inr hmem, settles_call.returns (n := maxOrder + 1) ?_⟩, hi, rfl, rfl⟩
  rw [Malloc3.call, sfree, he, Outcome.ret_bind]

theorem step_sfree_map {B : Layout} {L : List (ℕ × ℕ)} {r : ℕ × ℕ} (h : Inv base w.st B L)
    (hr : r ∈ L) (hmem : r.1 + sizeofMetadata ∈ w.live) :
    ∃ w', Step w (.sfree (r.1 + sizeofMetadata)) w' ∧ Inv base w'.st B (L.erase r) ∧
      w'.st.cookie = w.st.cookie ∧ w'.live = w.live.erase (r.1 + sizeofMetadata) := by
  obtain ⟨m, p, us, he, hi, -⟩ := Malloc3.free_map h hr (Nat.lt_succ_self L.length)
  refine ⟨⟨_, _⟩, ⟨.inr hmem, settles_call.returns (n := L.length + 1) ?_⟩, hi, rfl, rfl⟩
  rw [Malloc3.call, sfree, he, Outcome.ret_bind]

/-! ## What the invariant says -/

/-- What the client holds does not overlap, nor does any of it lie in a free block. -/
structure LiveOk (s : State) (live : List ℕ) : Prop where
  payloads : live.Pairwise fun p q => p + payloadLen s p ≤ q ∨ q + payloadLen s q ≤ p
  free : ∀ p ∈ live, ∀ k ≤ maxOrder, ∀ a ∈ s.freed k,
    p + payloadLen s p ≤ a ∨ a + blockLen s.mem a ≤ headerOf p

theorem WInv.ri (h : WInv base w) : RI w.st := by
  obtain ⟨B, L, hi, -⟩ := h
  obtain ⟨l, hl, -⟩ := hi.repr.riList hi.arena hi.head
  exact ⟨l, hl⟩

theorem WInv.liveOk (h : WInv base w) : LiveOk w.st w.live := by
  obtain ⟨B, L, hi, hl⟩ := h
  have hT := hi.repr.heap.tiles
  -- two blocks of the arena
  have hblocks : ∀ {a b : ℕ} {c d : Cell}, B a = some c → B b = some d → a ≠ b →
      a + 2 ^ c.order ≤ b ∨ b + 2 ^ d.order ≤ a := by
    intro a b c d ha hb hne
    by_contra hc
    have := Nat.two_pow_pos c.order
    have := Nat.two_pow_pos d.order
    rcases Nat.lt_or_gt_of_ne hne with hlt | hlt
    · exact hne (hT.cover_unique ha hb (u := b) (by omega) (by omega) le_rfl (by omega))
    · exact hne (hT.cover_unique ha hb (u := a) le_rfl (by omega) (by omega) (by omega))
  constructor
  · refine List.Pairwise.imp_of_mem (fun {p q} hp hq hne => ?_) hl.nodup
    rcases (hl.mem p).mp hp with ⟨a, i, ha, rfl⟩ | ⟨r, hr, rfl⟩ <;>
      rcases (hl.mem q).mp hq with ⟨b, j, hb, rfl⟩ | ⟨r', hr', rfl⟩
    · have := hblocks ha hb fun e => hne (by rw [e])
      rw [hi.payloadLen_heap ha, hi.payloadLen_heap hb, payload_end, payload_end]
      unfold startSize sizeofMetadata at *
      omega
    · have := (hi.maps.fresh hr').arena
      have := hT.fits ha
      rw [hi.payloadLen_heap ha, hi.payloadLen_map hr', payload_end]
      unfold startSize sizeofMetadata at *
      omega
    · have := (hi.maps.fresh hr).arena
      have := hT.fits hb
      rw [hi.payloadLen_heap hb, hi.payloadLen_map hr, payload_end]
      unfold startSize sizeofMetadata at *
      omega
    · have := hi.maps.apart_of_ne hr hr' fun e => hne (by rw [e])
      rw [hi.payloadLen_map hr, hi.payloadLen_map hr']
      unfold Apart sizeofMetadata at *
      omega
  · intro p hp k hk a ha
    obtain ⟨u, rfl, hu⟩ := (hi.repr.lists.mem hk a).mp ha
    rw [hi.repr.blockLen hu]
    rcases (hl.mem p).mp hp with ⟨b, j, hb, rfl⟩ | ⟨r, hr, rfl⟩
    · have := hblocks hb hu fun e => by rw [e, hu] at hb; simp at hb
      rw [hi.payloadLen_heap hb, payload_end, headerOf_add (hi.slot_lt hb)]
      unfold startSize at *
      omega
    · have := (hi.maps.fresh hr).arena
      have := hT.fits hu
      rw [hi.payloadLen_map hr, headerOf_add (hi.map_lt hr)]
      unfold startSize sizeofMetadata at *
      omega

/-- The initialised arena, with nothing allocated. -/
def start (m : Mem) (ck brk : ℕ) : World := ⟨initArena (boot m ck brk) true, []⟩

theorem live_fresh (base : ℕ) : Live base (fresh maxOrder arenaUnits) [] [] := by
  refine ⟨.nil, fun p => ?_⟩
  simp only [List.not_mem_nil, false_and, exists_false, or_false, false_iff]
  rintro ⟨a, k, ha, -⟩
  obtain ⟨i, -, -, hc⟩ := fresh_eq ha
  simp at hc

theorem wInv_start (m : Mem) {ck brk : ℕ} (h : Boots ck brk) :
    WInv (arenaBase brk) (start m ck brk) :=
  ⟨_, [], inv_initArena m h true, live_fresh _⟩

end World

end OsHomework.Malloc3
