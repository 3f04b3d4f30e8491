import OsHomework.Lib.ByteHeap
import OsHomework.Malloc3.Exponents

/-!
# `malloc_3` is an allocator, as long as its releases are quiet

The client of `malloc_3` sees the same heap as that of `malloc_2`. Blocks are cut, merged and mapped behind its back,
which changes only headers.

* `Ask`, `answer`: the calls with their results, `srealloc` among them; `Allowed`: a release is quiet, and `srealloc`
  does not grow a block in place;
* `WInv.malloc_kept`, `WInv.free_kept`, `WInv.wrote`: what `malloc`, `free` and a write leave alone;
  `WInv.srealloc_kept`: the three of them in a row;
* `Answers.refines`: one call is one step of the heap; **`quiet_refines_heap`**: every run is a run of the heap.
-/

set_option autoImplicit false

namespace OsHomework.Malloc3

open Buddy

/-! ## The client -/

/-- What the client asks for. -/
inductive Ask where
  | smalloc (sys : Sys) (size : ℕ)
  | scalloc (sys : Sys) (num size : ℕ)
  | sfree (p : ℕ)
  | srealloc (sys : Sys) (oldp size : ℕ)
  | write (x : ℕ) (v : UInt8)

/-- The state after the call, and the pointer returned if there is one. -/
def answer (fuel : ℕ) (s : State) : Ask → Outcome (State × ℕ)
  | .smalloc sys size => smalloc sys fuel s size
  | .scalloc sys num size => scalloc sys fuel s num size
  | .sfree p => do
    let s ← sfree fuel s p
    .ret (s, 0)
  | .srealloc sys oldp size => srealloc sys fuel s oldp size
  | .write x v => .ret ({ s with mem := Function.update s.mem x v }, 0)

/-- What the client holds after a call that returned `r`. -/
def holds (live : List ℕ) (r : ℕ) : Ask → List ℕ
  | .sfree p => live.erase p
  | .srealloc _ oldp _ => relive live oldp r
  | _ => track r live

/-- The client uses only what it holds, a block of the arena is released quietly, and `srealloc` does not grow a
block in place. -/
def Allowed (w : World) : Ask → Prop
  | .smalloc sys size => maxSize ≤ size → MmapFresh w sys size
  | .scalloc sys num size => maxSize ≤ num * size % 2 ^ 64 → MmapFresh w sys (num * size % 2 ^ 64)
  | .sfree p => p = 0 ∨ p ∈ w.live ∧ QuietFree w.st p
  | .srealloc sys oldp size => (maxSize ≤ size → MmapFresh w sys size) ∧
    (oldp = 0 ∨ oldp ∈ w.live ∧ (Larger w.st oldp size →
      ¬ GrowsInPlace w.st oldp size ∧ QuietFree w.st oldp))
  | .write x _ => ∃ p ∈ w.live, p ≤ x ∧ x < p + payloadLen w.st p

/-- The client makes the call, and this is what it gets. -/
def Answers (w : World) (c : Ask × ℕ) (w' : World) : Prop :=
  Allowed w c.1 ∧ Returns (fun n => answer n w.st c.1) (w'.st, c.2) ∧ w'.live = holds w.live c.2 c.1

/-- The heap of the client. -/
def heapOf (w : World) : ByteHeap := ByteHeap.image w.st.mem (payloadLen w.st) w.live

/-- The event of the heap. `scalloc` asks for the product as it is computed. -/
inductive Asks : Ask × ℕ → ByteHeap.Event → Prop
  | smalloc (sys : Sys) (size r : ℕ) : Asks (.smalloc sys size, r) (.alloc size r)
  | scalloc (sys : Sys) (num size r : ℕ) : Asks (.scalloc sys num size, r) (.calloc (num * size % 2 ^ 64) r)
  | sfree (p r : ℕ) : Asks (.sfree p, r) (.free p)
  | srealloc (sys : Sys) (oldp size r : ℕ) : Asks (.srealloc sys oldp size, r) (.realloc oldp size r)
  | write (p i r : ℕ) (v : UInt8) : Asks (.write (p + i) v, r) (.write p i v)

/-! ## Payloads -/

section Payload

variable {base : ℕ} {s s' : State} {B B' : Layout} {L L' : List (ℕ × ℕ)} {live live' : List ℕ} {p i : ℕ}

theorem Live.inPayload (hl : Live base B L live) (h : Inv base s B L) (hp : p ∈ live) (hi : i < payloadLen s p) :
    InPayload base B L (p + i) := by
  rcases (hl.mem p).mp hp with ⟨a, k, ha, rfl⟩ | ⟨r, hr, rfl⟩
  · rw [h.payloadLen_heap ha] at hi
    refine .inl ⟨a, _, ha, by omega, ?_⟩
    rw [← payload_end]
    omega
  · rw [h.payloadLen_map hr] at hi
    exact .inr ⟨r, hr, by omega, by omega⟩

theorem Live.payloadLen_eq (hl : Live base B L live) (h : Inv base s B L) (h' : Inv base s' B' L')
    (hp : p ∈ live)
    (hB : ∀ a k, B a = some ⟨k, false⟩ → p = base + startSize * a + sizeofMetadata → B' a = some ⟨k, false⟩)
    (hL : ∀ r ∈ L, p = r.1 + sizeofMetadata → r ∈ L') : payloadLen s' p = payloadLen s p := by
  rcases (hl.mem p).mp hp with ⟨a, k, ha, rfl⟩ | ⟨r, hr, rfl⟩
  · rw [h.payloadLen_heap ha, h'.payloadLen_heap (hB a k ha rfl)]
  · rw [h.payloadLen_map hr, h'.payloadLen_map (hL r hr rfl)]

theorem WInv.apart {w : World} (h : WInv base w) {q : ℕ} (hp : p ∈ w.live) (hq : q ∈ w.live) (hpq : p ≠ q) :
    p + payloadLen w.st p ≤ q ∨ q + payloadLen w.st q ≤ p :=
  have : Std.Symm fun p q => p + payloadLen w.st p ≤ q ∨ q + payloadLen w.st q ≤ p := ⟨fun _ _ => Or.symm⟩
  h.liveOk.payloads.forall hp hq hpq

theorem WInv.nodup {w : World} (h : WInv base w) : w.live.Nodup := by
  obtain ⟨B, L, -, hl⟩ := h
  exact hl.nodup

theorem WInv.null_not_mem {w : World} (h : WInv base w) : 0 ∉ w.live := fun h0 => h.ne_zero h0 rfl

end Payload

/-! ## What is left alone -/

section Kept

variable {base : ℕ} {w : World} {p : ℕ}

/-- **`malloc`** returns `NULL` and changes nothing, or a new block that is large enough. The blocks in use keep
their contents, and can be released as quietly as before. -/
theorem WInv.malloc_kept (h : WInv base w) {sys : Sys} {size : ℕ} (hf : maxSize ≤ size → MmapFresh w sys size) :
    ∃ s r, Returns (fun n => Malloc3.malloc sys n w.st size) (s, r) ∧ WInv base ⟨s, track r w.live⟩ ∧
      (r = 0 → s = w.st) ∧ (r ≠ 0 → r ∉ w.live ∧ size ≤ payloadLen s r) ∧
      ByteHeap.Keeps w.st.mem s.mem (payloadLen w.st) (payloadLen s) w.live ∧
      ∀ p ∈ w.live, QuietFree w.st p → QuietFree s p := by
  obtain ⟨B, L, hi, hl⟩ := h
  obtain ⟨s, B', L', r, he, hi', -, hto, hnull, hframe, -⟩ := malloc_cases sys hi (fun hm => (hf hm).fresh hi hl)
    (Nat.lt_succ_self _)
  have hl' := hl.alloc hi hi' hto
  have hw' : WInv base ⟨s, track r w.live⟩ := ⟨B', L', hi', hl'⟩
  have hL : ∀ r ∈ L, r ∈ L' := by
    cases hto with
    | map => exact fun r hr => List.mem_append_left _ hr
    | _ => exact fun r hr => hr
  have hlen : ∀ p ∈ w.live, payloadLen s p = payloadLen w.st p := fun p hp =>
    hl.payloadLen_eq hi hi' hp (fun a k ha _ => hto.used hi ha) fun r hr _ => hL r hr
  have hnew : r ≠ 0 → r ∉ w.live ∧ size ≤ payloadLen s r := by
    intro hr
    rw [track, if_neg hr] at hl'
    refine ⟨(List.nodup_cons.mp hl'.nodup).1, ?_⟩
    cases hto with
    | null => exact absurd rfl hr
    | heap hk ht =>
      rw [hi'.payloadLen_heap splitTo_self]
      exact hk.fits
    | @map addr hmin hfr => rw [hi'.payloadLen_map (r := (addr, size)) (by simp)]
  refine ⟨s, r, settles_malloc.returns he, hw', hnull, hnew, fun p hp => ⟨hlen p hp, fun i hi₀ => ?_⟩,
    fun p hp hq => ?_⟩
  · have hp' : p ∈ track r w.live := by
      unfold track
      split_ifs
      · exact hp
      · exact List.mem_cons_of_mem _ hp
    rw [← hlen p hp] at hi₀
    obtain ⟨hB, hL'⟩ := hi'.payload_out (hl'.inPayload hi' hp' hi₀)
    rcases hframe _ hB hL' with he | ⟨h₁, h₂, -⟩
    · exact he
    · by_cases hr : r = 0
      · rw [hnull hr]
      · -- the byte would lie in two payloads
        obtain ⟨hnot, hfits⟩ := hnew hr
        have := hw'.apart (p := p) (q := r) hp' (by rw [track, if_neg hr]; exact List.mem_cons_self)
          fun he => hnot (he ▸ hp)
        simp only at this
        omega
  · rcases (hl.mem p).mp hp with ⟨a, k, ha, rfl⟩ | ⟨r', hr', rfl⟩
    · obtain ⟨ha', hq'⟩ := hto.quiet hi ha ((hi.quietFree_iff ha).mp hq)
      exact (hi'.quietFree_iff ha').mpr hq'
    · intro hmm
      rw [headerOf_add (hi.map_lt hr'), (hi'.maps.hdrs (hL r' hr')).isMmap] at hmm
      cases hmm

/-- **`free`** returns, and the other blocks keep their contents. -/
theorem WInv.free_kept (h : WInv base w) (hp : p ∈ w.live) (hq : QuietFree w.st p) :
    ∃ s, Returns (fun n => free n w.st p) s ∧ WInv base ⟨s, w.live.erase p⟩ ∧
      ByteHeap.Keeps w.st.mem s.mem (payloadLen w.st) (payloadLen s) (w.live.erase p) := by
  obtain ⟨B, L, hi, hl⟩ := h
  rcases (hl.mem p).mp hp with ⟨a, k, ha, rfl⟩ | ⟨r, hr, rfl⟩
  · obtain ⟨m, f, he, hi', ho⟩ := Malloc3.free_heap hi ha ((hi.quietFree_iff ha).mp hq) (Nat.lt_succ_self _)
    have hl' := hl.free_heap hi ha
    refine ⟨_, settles_free.returns he, ⟨_, _, hi', hl'⟩, fun q hq => ?_⟩
    have hmem := List.mem_of_mem_erase hq
    refine ⟨hl.payloadLen_eq hi hi' hmem (fun b j hb heq => ?_) fun r hr _ => hr, fun i hi₀ => ?_⟩
    · refine (release_used (hi.repr.heap.tiles.aligned ha) ha).mpr ⟨?_, hb⟩
      rintro rfl
      exact hl.nodup.not_mem_erase (heq ▸ hq)
    · exact ho _ (hi.payload_out (hl.inPayload hi hmem hi₀)).1
  · obtain ⟨m, u, us, he, hi', ho⟩ := Malloc3.free_map hi hr (Nat.lt_succ_self _)
    have hl' := hl.free_map hi hr
    refine ⟨_, settles_free.returns he, ⟨_, _, hi', hl'⟩, fun q hq => ?_⟩
    have hmem := List.mem_of_mem_erase hq
    refine ⟨hl.payloadLen_eq hi hi' hmem (fun b j hb _ => hb) fun r' hr' heq => ?_, fun i hi₀ => ?_⟩
    · refine (hi.maps.nodup.of_map.mem_erase_iff).mpr ⟨?_, hr'⟩
      rintro rfl
      exact hl.nodup.not_mem_erase (heq ▸ hq)
    · exact ho _ fun r' hr' => (hi.payload_out (hl.inPayload hi hmem hi₀)).2 r' (List.mem_of_mem_erase hr')

/-- **A write into a block** changes no other one, nor how it can be released. -/
theorem WInv.wrote (h : WInv base w) (hp : p ∈ w.live) {m : Mem}
    (hm : ∀ x, (x < p ∨ p + payloadLen w.st p ≤ x) → m x = w.st.mem x) :
    WInv base ⟨{ w.st with mem := m }, w.live⟩ ∧
      (∀ q ∈ w.live, payloadLen { w.st with mem := m } q = payloadLen w.st q) ∧
      ByteHeap.Keeps w.st.mem m (payloadLen w.st) (payloadLen { w.st with mem := m }) (w.live.erase p) ∧
      ∀ q ∈ w.live, QuietFree w.st q → QuietFree { w.st with mem := m } q := by
  have hw := h
  obtain ⟨B, L, hi, hl⟩ := h
  have hi' : Inv base { w.st with mem := m } B L := hi.of_payload fun x hx => hm x (by
    by_contra hc
    refine hx ?_
    rw [show x = p + (x - p) by omega]
    exact hl.inPayload hi hp (by omega))
  have hlen : ∀ q ∈ w.live, payloadLen { w.st with mem := m } q = payloadLen w.st q := fun q hq =>
    hl.payloadLen_eq hi hi' hq (fun _ _ hb _ => hb) fun _ hr _ => hr
  refine ⟨⟨B, L, hi', hl⟩, hlen, fun q hq => ⟨hlen q (List.mem_of_mem_erase hq), fun i hi₀ => hm _ ?_⟩, fun q hq => ?_⟩
  · obtain ⟨hne, hmem⟩ := hl.nodup.mem_erase_iff.mp hq
    have := hw.apart hmem hp hne
    omega
  · rcases (hl.mem q).mp hq with ⟨a, k, ha, rfl⟩ | ⟨r, hr, rfl⟩
    · rw [hi.quietFree_iff ha, hi'.quietFree_iff ha]
      exact id
    · intro _ hmm
      rw [headerOf_add (hi.map_lt hr), (hi'.maps.hdrs hr).isMmap] at hmm
      cases hmm

/-- What is kept when `r` is returned for `p`. -/
structure Replaces (base : ℕ) (w : World) (p size : ℕ) (s' : State) (r : ℕ) : Prop where
  inv : WInv base ⟨s', relive w.live p r⟩
  failed : r = 0 → s' = w.st
  fits : r ≠ 0 → size ≤ payloadLen s' r
  grows : r ≠ 0 → payloadLen w.st p ≤ payloadLen s' r
  copied : r ≠ 0 → ∀ i < payloadLen w.st p, s'.mem (r + i) = w.st.mem (p + i)
  kept : r ≠ 0 → ByteHeap.Keeps w.st.mem s'.mem (payloadLen w.st) (payloadLen s') (w.live.erase p)

/-- **A block is moved**: `malloc`, the copy and `free` in a row. -/
theorem WInv.moved (h : WInv base w) (hp : p ∈ w.live) {sys : Sys} {size : ℕ}
    (hf : maxSize ≤ size → MmapFresh w sys size) (hsize : payloadLen w.st p < size) (hq : QuietFree w.st p) :
    ∃ s' r, Returns (fun n => do
      let (s, addr) ← Malloc3.malloc sys n w.st size
      if addr = 0 then .ret (s, 0)
      else do
        let s ← free n { s with mem := s.mem.copy addr p (payloadLen w.st p) } p
        .ret (s, addr)) (s', r) ∧ Replaces base w p size s' r := by
  obtain ⟨s₁, r, hmalloc, hw₁, hnull, hnew, hk₁, hq₁⟩ := h.malloc_kept hf
  by_cases hr : r = 0
  · subst hr
    refine ⟨s₁, 0, hmalloc.bind (.const rfl), ?_, fun _ => hnull rfl, fun h0 => absurd rfl h0,
      fun h0 => absurd rfl h0, fun h0 => absurd rfl h0, fun h0 => absurd rfl h0⟩
    rw [relive, if_pos rfl, hnull rfl]
    exact h
  obtain ⟨hnot, hfits⟩ := hnew hr
  have hroom : payloadLen w.st p ≤ payloadLen s₁ r := by omega
  rw [track, if_neg hr] at hw₁
  -- the copy stays within the new block
  obtain ⟨hw₂, hlen₂, hk₂, hq₂⟩ := hw₁.wrote (p := r) List.mem_cons_self
    (m := s₁.mem.copy r p (payloadLen w.st p)) fun x hx => Mem.copy_out (by simp only at hx; omega)
  have hp₂ : p ∈ r :: w.live := List.mem_cons_of_mem _ hp
  obtain ⟨s', hfree, hw₃, hk₃⟩ := hw₂.free_kept hp₂ (hq₂ p hp₂ (hq₁ p hp hq))
  have hrp : ¬(r == p) = true := by simpa using fun he : r = p => hnot (he ▸ hp)
  simp only [List.erase_cons_tail hrp, List.erase_cons_head] at hw₃ hk₃ hk₂
  have hret : Returns (fun n => do
      let (s, addr) ← Malloc3.malloc sys n w.st size
      if addr = 0 then .ret (s, 0)
      else do
        let s ← free n { s with mem := s.mem.copy addr p (payloadLen w.st p) } p
        .ret (s, addr)) (s', r) := by
    refine hmalloc.bind ?_
    simp only [if_neg hr]
    exact hfree.bind (.const rfl)
  refine ⟨s', r, hret, ?_⟩
  obtain ⟨hlen, hbytes⟩ := hk₃ r List.mem_cons_self
  have hlen' : payloadLen s' r = payloadLen s₁ r := hlen.trans (hlen₂ r List.mem_cons_self)
  exact {
    inv := by rwa [relive, if_neg hr]
    failed := fun h0 => absurd h0 hr
    fits := fun _ => hfits.trans_eq hlen'.symm
    grows := fun _ => hroom.trans_eq hlen'.symm
    copied := fun _ i hi => by
      have hi₂ := (hi.trans_le hroom).trans_eq (hlen₂ r List.mem_cons_self).symm
      exact (hbytes i hi₂).trans ((Mem.copy_in hi).trans ((hk₁ p hp).2 i hi))
    kept := fun _ => ((hk₁.mono List.erase_subset).trans (hk₂.mono List.erase_subset)).trans
      (hk₃.mono fun q hq => List.mem_cons_of_mem _ hq) }

/-- **`srealloc`** that does not grow the block in place: it returns `NULL` and changes nothing, or a block that is
large enough and begins with the contents of the old one. -/
theorem WInv.srealloc_kept (h : WInv base w) (hp : p ∈ w.live) {sys : Sys} {size r : ℕ} {s' : State}
    (hf : maxSize ≤ size → MmapFresh w sys size)
    (hq : Larger w.st p size → ¬ GrowsInPlace w.st p size ∧ QuietFree w.st p)
    (hr : Returns (fun n => Malloc3.srealloc sys n w.st p size) (s', r)) : Replaces base w p size s' r := by
  have hp0 := h.ne_zero hp
  obtain ⟨N, hN⟩ := hr
  by_cases hv : size = 0 ∨ maxSizeToAllocate < size
  · have he := hN N le_rfl
    simp only [Malloc3.srealloc, if_pos hv] at he
    cases he
    exact ⟨h, fun _ => rfl, fun h0 => absurd rfl h0, fun h0 => absurd rfl h0, fun h0 => absurd rfl h0,
      fun h0 => absurd rfl h0⟩
  have hold : (hdr w.st.mem (headerOf p)).size = payloadLen w.st p := rfl
  simp only [Malloc3.srealloc, if_neg hv, if_neg hp0, sreallocList, hold] at hN
  by_cases hsize : size ≤ payloadLen w.st p
  · have he := hN N le_rfl
    rw [if_pos hsize] at he
    cases he
    obtain ⟨B, L, hi, hl⟩ := h
    refine ⟨⟨B, L, hi, ?_⟩, fun h0 => absurd h0 hp0, fun _ => hsize, fun _ => le_rfl, fun _ _ _ => rfl,
      fun _ => .refl _ _ _⟩
    rw [relive, if_neg hp0]
    exact hl.perm (List.perm_cons_erase hp).symm
  · have hlarger : Larger w.st p size := ⟨by omega, by omega, by omega⟩
    obtain ⟨hno, hquiet⟩ := hq hlarger
    simp only [if_neg hsize] at hN
    -- the rehearsal has an answer, and it is no
    obtain ⟨b, hb, -⟩ := Outcome.bind_eq_ret.mp (hN N le_rfl)
    have hret := settles_checkIfUnionIsPossible.returns hb
    cases b with
    | true => exact absurd ⟨hlarger, hret⟩ hno
    | false =>
      obtain ⟨s'', r', hmoved, hrep⟩ := h.moved hp hf (not_le.mp hsize) hquiet
      obtain ⟨rfl, rfl⟩ := Prod.mk.inj (Returns.unique ⟨N, hN⟩ (hret.bind hmoved))
      exact hrep

end Kept

/-! ## The refinement -/

section Refines

variable {base : ℕ} {w w' : World} {c : Ask × ℕ}

/-- What `scalloc` returns is a block of `malloc`, filled with zeros. -/
theorem WInv.scalloc_kept (h : WInv base w) {sys : Sys} {num size : ℕ}
    (hf : maxSize ≤ num * size % 2 ^ 64 → MmapFresh w sys (num * size % 2 ^ 64)) :
    ∃ s r, Returns (fun n => scalloc sys n w.st num size) (s, r) ∧ WInv base ⟨s, track r w.live⟩ ∧
      (r = 0 → s = w.st) ∧ (r ≠ 0 → r ∉ w.live ∧ num * size % 2 ^ 64 ≤ payloadLen s r ∧
        ByteHeap.Keeps w.st.mem s.mem (payloadLen w.st) (payloadLen s) w.live ∧
        ∀ i < num * size % 2 ^ 64, s.mem (r + i) = 0) := by
  by_cases hv : size = 0 ∨ num = 0 ∨ maxSizeToAllocate < num * size % 2 ^ 64
  · refine ⟨w.st, 0, ?_, h, fun _ => rfl, fun h0 => absurd rfl h0⟩
    simp only [scalloc, if_pos hv]
    exact .const rfl
  obtain ⟨s, r, hmalloc, hw, hnull, hnew, hk, -⟩ := h.malloc_kept hf
  have hret : Returns (fun n => scalloc sys n w.st num size)
      (if r = 0 then (s, 0) else ({ s with mem := s.mem.fill r (num * size % 2 ^ 64) 0 }, r)) := by
    simp only [scalloc, if_neg hv]
    refine hmalloc.bind (.const ?_)
    simp only
    split_ifs <;> rfl
  by_cases hr : r = 0
  · rw [if_pos hr] at hret
    subst hr
    exact ⟨s, 0, hret, hw, hnull, fun h0 => absurd rfl h0⟩
  · rw [if_neg hr] at hret
    obtain ⟨hnot, hfits⟩ := hnew hr
    rw [track, if_neg hr] at hw
    obtain ⟨hw₂, hlen, hk₂, -⟩ := hw.wrote (p := r) List.mem_cons_self
      (m := s.mem.fill r (num * size % 2 ^ 64) 0) fun x hx => Mem.fill_out (by simp only at hx; omega)
    rw [List.erase_cons_head] at hk₂
    refine ⟨_, r, hret, ?_, fun h0 => absurd h0 hr, fun _ => ⟨hnot, ?_, hk.trans hk₂, fun i hi => ?_⟩⟩
    · rwa [track, if_neg hr]
    · exact hfits.trans_eq (hlen r List.mem_cons_self).symm
    · exact if_pos ⟨Nat.le_add_right _ _, Nat.add_lt_add_left hi _⟩

/-- A call of `srealloc`. -/
theorem WInv.srealloc_step (h : WInv base w) {sys : Sys} {p size r : ℕ} {s' : State}
    (hok : Allowed w (.srealloc sys p size)) (hret : Returns (fun n => Malloc3.srealloc sys n w.st p size) (s', r)) :
    WInv base ⟨s', relive w.live p r⟩ ∧
      ∃ e, Asks (.srealloc sys p size, r) e ∧ ByteHeap.Step (heapOf w) e (heapOf ⟨s', relive w.live p r⟩) := by
  obtain ⟨hf, hp⟩ := hok
  rcases hp with rfl | ⟨hp, hq⟩
  · by_cases hv : size = 0 ∨ maxSizeToAllocate < size
    · simp only [Malloc3.srealloc, if_pos hv] at hret
      obtain ⟨rfl, rfl⟩ := Prod.mk.inj (hret.unique (.const rfl))
      exact ⟨h, _, .srealloc sys 0 size 0, .reallocFails 0 size⟩
    · simp only [Malloc3.srealloc, if_neg hv, if_true] at hret
      obtain ⟨s, r', hret', hw, hnull, hnew, hk, -⟩ := h.malloc_kept hf
      obtain ⟨rfl, rfl⟩ := Prod.mk.inj (hret.unique hret')
      rw [relive, List.erase_of_not_mem h.null_not_mem]
      refine ⟨hw, _, .srealloc sys 0 size r, ?_⟩
      by_cases hr : r = 0
      · subst hr
        obtain rfl : s' = w.st := hnull rfl
        exact .reallocFails 0 size
      · rw [if_neg hr]
        exact .of_reallocNull hr (hnew hr).1 (hnew hr).2 hk
  · have hrep := h.srealloc_kept hp hf hq hret
    refine ⟨hrep.inv, _, .srealloc sys p size r, ?_⟩
    by_cases hr : r = 0
    · subst hr
      obtain rfl : s' = w.st := hrep.failed rfl
      exact .reallocFails p size
    · have hinv := hrep.inv
      rw [relive, if_neg hr] at hinv ⊢
      exact .of_realloc hr h.nodup hp (List.nodup_cons.mp hinv.nodup).1 (hrep.fits hr) (hrep.grows hr) (hrep.copied hr)
        (hrep.kept hr)

/-- **One call is one step of the heap**, and keeps the invariant. -/
theorem Answers.refines (h : WInv base w) (hs : Answers w c w') :
    WInv base w' ∧ ∃ e, Asks c e ∧ ByteHeap.Step (heapOf w) e (heapOf w') := by
  obtain ⟨ask, r⟩ := c
  obtain ⟨s', live'⟩ := w'
  obtain ⟨hok, hret, hlive⟩ := hs
  cases ask with
  | smalloc sys size =>
    obtain rfl : live' = track r w.live := hlive
    obtain ⟨s, r', hret', hw, hnull, hnew, hk, -⟩ := h.malloc_kept hok
    obtain ⟨rfl, rfl⟩ := Prod.mk.inj (hret.unique hret')
    refine ⟨hw, _, .smalloc sys size r, ?_⟩
    by_cases hr : r = 0
    · subst hr
      obtain rfl : s' = w.st := hnull rfl
      exact .allocFails size
    · rw [track, if_neg hr]
      exact .of_alloc hr (hnew hr).1 (hnew hr).2 hk
  | scalloc sys num size =>
    obtain rfl : live' = track r w.live := hlive
    obtain ⟨s, r', hret', hw, hnull, hnew⟩ := h.scalloc_kept hok
    obtain ⟨rfl, rfl⟩ := Prod.mk.inj (hret.unique hret')
    refine ⟨hw, _, .scalloc sys num size r, ?_⟩
    by_cases hr : r = 0
    · subst hr
      obtain rfl : s' = w.st := hnull rfl
      exact .callocFails _
    · obtain ⟨hnot, hn, hk, hzero⟩ := hnew hr
      rw [track, if_neg hr]
      exact .of_calloc hr hnot hn hk hzero
  | sfree p =>
    obtain rfl : live' = w.live.erase p := hlive
    rcases hok with rfl | ⟨hp, hq⟩
    · obtain ⟨rfl, rfl⟩ := Prod.mk.inj (hret.unique (.const rfl))
      rw [List.erase_of_not_mem h.null_not_mem]
      exact ⟨h, _, .sfree 0 0, .freeNull⟩
    · obtain ⟨s, hfree, hw, hk⟩ := h.free_kept hp hq
      obtain ⟨rfl, rfl⟩ := Prod.mk.inj (hret.unique (hfree.bind (.const rfl)))
      exact ⟨hw, _, .sfree p 0, .of_free h.nodup hp hk⟩
  | srealloc sys p size =>
    obtain rfl : live' = relive w.live p r := hlive
    exact h.srealloc_step hok hret
  | write x v =>
    obtain ⟨rfl, rfl⟩ := Prod.mk.inj (hret.unique (.const rfl))
    obtain rfl : live' = w.live := hlive
    obtain ⟨p, hp, hx, hlt⟩ := hok
    obtain ⟨i, rfl⟩ := Nat.exists_eq_add_of_le hx
    have hi : i < payloadLen w.st p := Nat.lt_of_add_lt_add_left hlt
    obtain ⟨hw, hlen, -⟩ := h.wrote hp (m := Function.update w.st.mem (p + i) v) fun x hx =>
      Function.update_of_ne (by omega) _ _
    refine ⟨hw, _, .write p i 0 v, .of_write hp hi hlen fun q hq hne j hj => ?_⟩
    have := h.apart hq hp hne
    omega

/-- An action is one of the calls. -/
def Act.ask : Act → Ask
  | .op (.smalloc sys size) => .smalloc sys size
  | .op (.scalloc sys num size) => .scalloc sys num size
  | .op (.sfree p) => .sfree p
  | .op (.write x v) => .write x v
  | .srealloc sys p size => .srealloc sys p size

theorem act_eq (n : ℕ) (w : World) (a : Act) :
    act n w a = answer n w.st a.ask >>= fun r => .ret ⟨r.1, holds w.live r.2 a.ask⟩ := by
  rcases a with (_ | _ | p | _) | _
  case op.sfree =>
    simp only [act, call, Act.ask, answer, sfree]
    cases free n w.st p <;> rfl
  all_goals rfl

theorem settles_answer {s : State} {a : Ask} : Settles fun n => answer n s a := by
  cases a with
  | smalloc sys size => exact settles_malloc
  | scalloc sys num size => exact settles_scalloc
  | sfree p => exact settles_free.bind fun _ => .const _
  | srealloc sys p size => exact settles_srealloc
  | write x v => exact .const _

theorem exists_answers {acts : List Act} (h : Run CleanStep w acts w') :
    ∃ cs : List (Ask × ℕ), Run Answers w cs w' ∧ List.Forall₂ (fun a c => c.1 = a.ask) acts cs := by
  refine (h.simulates (I := fun _ => True) (f := id) trivial ?_).2
  rintro t a u - ⟨⟨hadm, hret⟩, hclean⟩
  obtain ⟨N, hN⟩ := hret
  have he := hN N le_rfl
  beta_reduce at he
  rw [act_eq] at he
  obtain ⟨⟨s, r⟩, ha, hu⟩ := Outcome.bind_eq_ret.mp he
  obtain rfl := Outcome.ret.inj hu
  refine ⟨trivial, (a.ask, r), rfl, ?_, settles_answer.returns ha, rfl⟩
  rcases a with (_ | _ | p | _) | ⟨sys, p, size⟩
  case op.sfree =>
    by_cases hp : p = 0
    · exact .inl hp
    · exact .inr ⟨hadm.resolve_left hp, hclean hp⟩
  case srealloc => exact ⟨hadm.2, .inr ⟨hadm.1, fun hl => (hclean hl).2⟩⟩
  all_goals exact hadm

/-- The call changes the block of length `n` at `p`. -/
def Touches (p n : ℕ) : Ask → Prop
  | .sfree q | .srealloc _ q _ => q = p
  | .write x _ => p ≤ x ∧ x < p + n
  | _ => False

theorem Asks.touches {c : Ask × ℕ} {e : ByteHeap.Event} {p n : ℕ} (h : Asks c e) (he : e.Touches p n) :
    Touches p n c.1 := by
  cases h with
  | smalloc | scalloc => exact he
  | sfree | srealloc => exact he
  | write q i =>
    obtain ⟨rfl, hi⟩ := he
    exact ⟨Nat.le_add_right q i, Nat.add_lt_add_left hi q⟩

theorem WInv.refines {cs : List (Ask × ℕ)} (h : WInv base w) (hr : Run Answers w cs w') :
    ∃ es, Run ByteHeap.Step (heapOf w) es (heapOf w') ∧ List.Forall₂ Asks cs es :=
  (hr.simulates h fun _ _ _ hi hs => hs.refines hi).2

/-- **Every run of `malloc_3`** whose releases are quiet, and in which `srealloc` does not grow a block in place, **is
a run of the heap**: each call, with the result it had, is the event of the heap that it asks for. -/
theorem quiet_refines_heap (m : Mem) {ck brk : ℕ} (hb : Boots ck brk) {cs : List (Ask × ℕ)}
    (hr : Run Answers (start m ck brk) cs w) :
    ∃ es, Run ByteHeap.Step ByteHeap.empty es (heapOf w) ∧ List.Forall₂ Asks cs es :=
  (wInv_start m hb).refines hr

/-- A block that is large enough is kept. -/
theorem answers_srealloc_fits (sys : Sys) {p size : ℕ} (hp : p ∈ w.live) (hp0 : p ≠ 0) (h₀ : size ≠ 0)
    (hsize : size < maxSize) (hfits : size ≤ payloadLen w.st p) :
    Answers w (.srealloc sys p size, p) ⟨w.st, relive w.live p p⟩ := by
  have hmax : size ≤ maxSizeToAllocate := by
    unfold maxSize at hsize
    unfold maxSizeToAllocate
    omega
  have hret : ∀ n, answer n w.st (.srealloc sys p size) = .ret (w.st, p) := fun n =>
    srealloc_fits sys hp0 h₀ hmax hfits
  have hallowed : Allowed w (.srealloc sys p size) :=
    ⟨fun h => absurd h (not_le.mpr hsize), .inr ⟨hp, fun h => absurd h.2.2 (not_lt.mpr hfits)⟩⟩
  exact ⟨hallowed, ⟨0, fun n _ => hret n⟩, rfl⟩

/-- One block is allocated, and reallocated to a size that it has. -/
theorem quiet_refines_heap_two_calls : ∃ cs w, Run Answers (start (fun _ => 0) 0 4198400) cs w ∧ cs.length = 2 ∧
    ∃ es, Run ByteHeap.Step ByteHeap.empty es (heapOf w) ∧ List.Forall₂ Asks cs es := by
  obtain ⟨w, hrun, -, -, hlive, -, hlen⟩ := exists_oneBlock
  have hclean : CleanStep _ (.op (.smalloc ⟨true, none⟩ 65000)) w := ⟨hrun.single, trivial⟩
  obtain ⟨cs, hcs, hops⟩ := exists_answers (Run.cons hclean (.nil w))
  have hsecond : Answers w (.srealloc ⟨true, none⟩ 8388648 65000, 8388648) _ :=
    answers_srealloc_fits _ (hlive ▸ List.mem_singleton_self _) (by norm_num) (by norm_num) (by norm_num [maxSize])
      (by rw [hlen]; decide)
  exact ⟨_, _, hcs.snoc hsecond, by simp [← hops.length_eq], quiet_refines_heap _ boots_example (hcs.snoc hsecond)⟩

/-- **A block stays as it is** until a call touches it, whatever is cut, merged and mapped meanwhile. -/
theorem quiet_block_stays (m : Mem) {ck brk : ℕ} (hb : Boots ck brk) {cs cs' : List (Ask × ℕ)}
    (hr : Run Answers (start m ck brk) cs w) (hr' : Run Answers w cs' w') {p : ℕ} (hp : p ∈ w.live)
    (hno : ∀ c ∈ cs', ¬ Touches p (payloadLen w.st p) c.1) : p ∈ w'.live ∧ payloadLen w'.st p = payloadLen w.st p ∧
      ∀ i < payloadLen w.st p, w'.st.mem (p + i) = w.st.mem (p + i) := by
  have hstep := fun t c u (hi : WInv (arenaBase brk) t) (hs : Answers t c u) => hs.refines hi
  have hw := (hr.simulates (wInv_start m hb) hstep).1
  have hkeeps : heapOf w' p = some (ByteHeap.bytes w.st.mem p (payloadLen w.st p)) := by
    refine ByteHeap.keeps_of_refines hr' hw hstep (ByteHeap.image_mem hp) fun c hc e he ht => ?_
    rw [ByteHeap.length_bytes] at ht
    exact hno c hc (he.touches ht)
  exact ByteHeap.image_eq_bytes hkeeps

/-- A second allocation leaves the block of the first one alone. -/
theorem quiet_block_stays_two_blocks : ∃ w w' : World, ∃ cs cs' : List (Ask × ℕ),
    Run Answers (start (fun _ => 0) 0 4198400) cs w ∧ Run Answers w cs' w' ∧ cs'.length = 1 ∧ 8388648 ∈ w.live ∧
      8388648 ∈ w'.live ∧ payloadLen w'.st 8388648 = payloadLen w.st 8388648 ∧
        ∀ i < payloadLen w.st 8388648, w'.st.mem (8388648 + i) = w.st.mem (8388648 + i) := by
  obtain ⟨w, hrun, hw, -, hlive, -⟩ := exists_oneBlock
  have hclean : CleanStep _ (.op (.smalloc ⟨true, none⟩ 65000)) w := ⟨hrun.single, trivial⟩
  obtain ⟨cs, hcs, -⟩ := exists_answers (Run.cons hclean (.nil w))
  have hsmall : maxSize ≤ 100 → MmapFresh w ⟨true, none⟩ 100 := fun h => by
    unfold maxSize at h
    omega
  obtain ⟨s, r, hret, -⟩ := hw.malloc_kept hsmall
  have hstep : Answers w (.smalloc ⟨true, none⟩ 100, r) ⟨s, track r w.live⟩ := ⟨hsmall, hret, rfl⟩
  have hsecond : Run Answers w [(.smalloc ⟨true, none⟩ 100, r)] ⟨s, track r w.live⟩ := .cons hstep (.nil _)
  have hp : 8388648 ∈ w.live := by rw [hlive]; exact List.mem_singleton_self _
  have hno : ∀ c ∈ [(Ask.smalloc ⟨true, none⟩ 100, r)], ¬ Touches 8388648 (payloadLen w.st 8388648) c.1 := by
    rintro c hc ht
    obtain rfl := List.mem_singleton.mp hc
    exact ht
  exact ⟨w, _, cs, _, hcs, hsecond, rfl, hp, quiet_block_stays _ boots_example hcs hsecond hp hno⟩

end Refines

end OsHomework.Malloc3
