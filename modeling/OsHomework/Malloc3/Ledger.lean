import OsHomework.Malloc3.Confined
import OsHomework.Malloc3.DoubleFree
import OsHomework.Malloc3.Stats

/-!
# `malloc_3`: the mapped blocks over a run

What a client of `smalloc` and `sfree` would write down about its mapped blocks, next to what the allocator
knows of them. Releases are not required to be quiet: the arena may end up with blocks that overlap, but what
happens there does not reach the mapped blocks.

* `Ledger`, `LedgerStep`: a run that is written down;
* `Books base g H`: what such runs keep; **`Books.step`**;
* `ListsMapped`, and **`mmap_list_is_ledger`**: the list from `MMAPhead` is what was written down;
* `GivesBack`, and **`gives_back_iff`**: what was released went back to the system, unless a release hit
  the block at `MMAPhead`.
-/

set_option autoImplicit false

namespace OsHomework.Malloc3

open Buddy

/-! ## A run that is written down -/

/-- The client writes down the header address and the request of each block it has mapped, oldest first,
and those it has released, latest first. -/
structure Ledger where
  world : World
  mapped : List (ℕ × ℕ)
  released : List (ℕ × ℕ)

namespace Ledger

/-- `smalloc` of `size` bytes returned `p`. -/
def alloc (g : Ledger) (s : State) (p size : ℕ) : Ledger where
  world := ⟨s, track p g.world.live⟩
  mapped := if p ≠ 0 ∧ maxSize ≤ size then g.mapped ++ [(headerOf p, size)] else g.mapped
  released := g.released

/-- `sfree` of `p` returned. -/
def release (g : Ledger) (s : State) (p : ℕ) : Ledger where
  world := ⟨s, g.world.live.erase p⟩
  mapped := g.mapped.filter fun r => r.1 + sizeofMetadata ≠ p
  released := (g.mapped.filter fun r => r.1 + sizeofMetadata = p) ++ g.released

end Ledger

/-- A call of `smalloc` or `sfree` that returns. `mmap` answers with fresh pages, and only pointers that
were returned are released. -/
inductive LedgerStep (g : Ledger) : Op → Ledger → Prop
  | smalloc {sys : Sys} {size p : ℕ} {s : State} : (∀ addr, sys.mmapAddr = some addr → 4096 ∣ addr) →
      (maxSize ≤ size → MmapFresh g.world sys size) →
      Returns (fun n => smalloc sys n g.world.st size) (s, p) →
      LedgerStep g (.smalloc sys size) (g.alloc s p size)
  | sfree {p : ℕ} {s : State} : p = 0 ∨ p ∈ g.world.live → Returns (fun n => sfree n g.world.st p) s →
      LedgerStep g (.sfree p) (g.release s p)

/-- Memory before the first call: no header of the arena is marked free, nor any that a block of the order of
the whole arena would take for its buddy. -/
def Unmarked (base : ℕ) (m : Mem) : Prop :=
  ∀ a < arenaUnits, (slots base m a).isFree = false ∧ (hdr m (across base a)).isFree = false

/-! ## What the runs keep -/

/-- The way back through the mapped blocks. -/
def WayBack (m : Mem) (L : List (ℕ × ℕ)) : Prop := Back (fun a => (hdr m a).prev) 0 (L.map Prod.fst)

/-- **What the runs keep.** The pointers to the arena that the client holds are `H`. -/
structure Books (base : ℕ) (g : Ledger) (H : List ℕ) : Prop where
  guarded : Guarded base g.world.st
  maps : Maps base g.world.st.cookie g.world.st.mem g.world.st.mmapHead g.mapped
  pages : ∀ r ∈ g.mapped, startSize ∣ r.1
  heap : ∀ p ∈ H, ∃ q, p = q + sizeofMetadata ∧ SaneAt base g.world.st.mem q
  live : g.world.live.Perm (H ++ g.mapped.map fun r => r.1 + sizeofMetadata)

section Frames

variable {base ck head : ℕ} {m m' : Mem} {L : List (ℕ × ℕ)} {r : ℕ × ℕ}

theorem Confined.hdr_map (hc : Confined base m m') (hf : Fresh base [] r.1 r.2) : hdr m' r.1 = hdr m r.1 := by
  apply hdr_congr
  intro x h₁ h₂
  apply hc.out
  have := hf.arena
  unfold sizeofMetadata at this
  omega

theorem Confined.maps (hc : Confined base m m') (h : Maps base ck m head L) : Maps base ck m' head L :=
  h.congr_prev fun _ hr => ⟨_, (hc.hdr_map (h.fresh hr)).trans (self_with_prev _)⟩

theorem Confined.wayBack (hc : Confined base m m') (h : Maps base ck m head L) (hb : WayBack m L) :
    WayBack m' L := by
  refine hb.congr fun a ha => ?_
  obtain ⟨r, hr, rfl⟩ := List.mem_map.mp ha
  rw [hc.hdr_map (h.fresh hr)]

theorem OnMaps.confined (ho : OnMaps L m m') (hL : ∀ r ∈ L, Fresh base [] r.1 r.2) {a : ℕ}
    (ha : a < arenaUnits) : slots base m' a = slots base m a := by
  refine slots_congr fun x h₁ h₂ => ho x fun r hr => ?_
  have := (hL r hr).arena
  unfold startSize sizeofMetadata at *
  omega

theorem SameMarks.tame (hm : SameMarks m m') (hA : Arena base)
    (hs : ∀ a < arenaUnits, slots base m' a = slots base m a) (ht : Tame base m) : Tame base m' := by
  refine ⟨fun a ha => ?_, fun a ha => ?_⟩
  · rw [hs a ha]
    exact ht.marked a ha
  · rw [hm _ (across_out hA ha).1]
    exact ht.across a ha

theorem tame_fill {addr n : ℕ} (ht : Tame base m)
    (hf : addr + n ≤ base ∨ base + startSize * arenaUnits ≤ addr) : Tame base (m.fill addr n 0) := by
  have hs : ∀ a < arenaUnits, slots base (m.fill addr n 0) a = slots base m a := fun a ha => by
    refine slots_congr fun x h₁ h₂ => Mem.fill_out ?_
    unfold startSize at *
    omega
  refine ⟨fun a ha => ?_, fun a ha => ?_⟩
  · rw [hs a ha]
    exact ht.marked a ha
  · have hbyte : m.fill addr n 0 (across base a + 16) = 0 ∨
        m.fill addr n 0 (across base a + 16) = m (across base a + 16) := by
      by_cases hx : across base a + 16 < addr ∨ addr + n ≤ across base a + 16
      · exact .inr (Mem.fill_out hx)
      · exact .inl (if_pos ⟨by omega, by omega⟩)
    have := ht.across a ha
    simp only [hdr, Mem.load, bne_eq_false_iff_eq] at this ⊢
    rcases hbyte with hbyte | hbyte <;> rw [hbyte]
    · rfl
    · exact this

end Frames

section Entries

variable {base ck head p : ℕ} {m : Mem} {L : List (ℕ × ℕ)} {r : ℕ × ℕ}

theorem Maps.entry_inj (h : Maps base ck m head L) {r' : ℕ × ℕ} (hr' : r' ∈ L) (hr : r ∈ L) :
    r'.1 + sizeofMetadata = r.1 + sizeofMetadata ↔ r' = r := by
  refine ⟨fun he => List.inj_on_of_nodup_map h.nodup hr' hr (by omega), fun he => by rw [he]⟩

theorem Maps.filter_ne (h : Maps base ck m head L) (hr : r ∈ L) :
    (L.filter fun r' => r'.1 + sizeofMetadata ≠ r.1 + sizeofMetadata) = L.erase r := by
  rw [h.nodup.of_map.erase_eq_filter]
  refine List.filter_congr fun r' hr' => ?_
  by_cases he : r' = r
  · simp [he]
  · rw [bne_iff_ne.mpr he, decide_eq_true (mt (h.entry_inj hr' hr).mp he)]

theorem Maps.filter_eq (h : Maps base ck m head L) (hr : r ∈ L) :
    (L.filter fun r' => r'.1 + sizeofMetadata = r.1 + sizeofMetadata) = [r] := by
  have hcount : L.count r = 1 := List.count_eq_one_of_mem h.nodup.of_map hr
  have hfilter : (L.filter fun r' => r'.1 + sizeofMetadata = r.1 + sizeofMetadata) = L.filter (· = r) := by
    refine List.filter_congr fun r' hr' => ?_
    simp only [h.entry_inj hr' hr]
  rw [hfilter, List.filter_eq, hcount]
  rfl

theorem filter_ne_self (h : ∀ r ∈ L, r.1 + sizeofMetadata ≠ p) :
    (L.filter fun r => r.1 + sizeofMetadata ≠ p) = L :=
  List.filter_eq_self.mpr fun r hr => decide_eq_true (h r hr)

theorem filter_eq_nil (h : ∀ r ∈ L, r.1 + sizeofMetadata ≠ p) :
    (L.filter fun r => r.1 + sizeofMetadata = p) = [] :=
  List.filter_eq_nil_iff.mpr fun r hr => by simpa using h r hr

end Entries

/-! ## One step -/

namespace Books

variable {base p size n : ℕ} {g : Ledger} {H : List ℕ} {sys : Sys} {s : State} {r : ℕ × ℕ}

theorem mem_live (h : Books base g H) :
    p ∈ g.world.live ↔ p ∈ H ∨ ∃ r ∈ g.mapped, p = r.1 + sizeofMetadata := by
  rw [h.live.mem_iff, List.mem_append, List.mem_map]
  simp only [eq_comm]

theorem map_lt (h : Books base g H) (hr : r ∈ g.mapped) : r.1 < 2 ^ 64 := by
  have := (h.maps.fresh hr).fits
  omega

/-- A pointer into the arena is not one to a mapped block. -/
theorem heap_ne_map (h : Books base g H) (hp : p ∈ H) (hr : r ∈ g.mapped) : r.1 + sizeofMetadata ≠ p := by
  obtain ⟨-, rfl, a, ha, rfl, -⟩ := h.heap p hp
  have := (h.maps.fresh hr).arena
  unfold startSize sizeofMetadata at *
  omega

/-- A change of the heap. -/
theorem heapStep (h : Books base g H) {live : List ℕ} {H' : List ℕ} (hs : HeapStep base g.world.st s)
    (hH : ∀ p ∈ H', p ∈ H ∨ ∃ q, p = q + sizeofMetadata ∧ SaneAt base s.mem q)
    (hl : live.Perm (H' ++ g.mapped.map fun r => r.1 + sizeofMetadata)) :
    Books base ⟨⟨s, live⟩, g.mapped, g.released⟩ H' := by
  have hmaps := hs.confined.maps h.maps
  refine ⟨h.guarded.heapStep hs, ?_, h.pages, fun p hp => ?_, hl⟩
  · dsimp only
    rw [hs.frame]
    exact hmaps
  · rcases hH p hp with hp | hp
    · obtain ⟨q, rfl, hq⟩ := h.heap p hp
      exact ⟨q, rfl, hq.confined hs.confined⟩
    · exact hp

/-- **A request for the arena.** -/
theorem alloc_small (h : Books base g H) (hsize : size < maxSize)
    (hs : malloc sys n g.world.st size = .ret (s, p)) :
    HeapStep base g.world.st s ∧ ∃ H', Books base (g.alloc s p size) H' := by
  obtain ⟨hst, hp⟩ := h.guarded.malloc hsize hs
  refine ⟨hst, if p = 0 then H else p :: H, ?_⟩
  rw [Ledger.alloc, if_neg (by omega), track]
  split_ifs with h₀
  · exact h.heapStep hst (fun p hp => .inl hp) h.live
  · refine h.heapStep hst (fun q hq => ?_) (h.live.cons p)
    rcases List.mem_cons.mp hq with rfl | hq
    · exact .inr (hp.resolve_left h₀)
    · exact .inl hq

/-- **A request that is mapped.** -/
theorem alloc_map (h : Books base g H) {addr : ℕ} (hmin : maxSize ≤ size) (hmax : size ≤ maxSizeToAllocate)
    (hsys : sys.mmapAddr = some addr) (hpage : 4096 ∣ addr) (hf : MmapFresh g.world sys size)
    (hn : g.mapped.length < n) :
    ∃ s, malloc sys n g.world.st size = .ret (s, addr + sizeofMetadata) ∧ s.unmapped = g.world.st.unmapped ∧
      (g.alloc s (addr + sizeofMetadata) size).mapped = g.mapped ++ [(addr, size)] ∧
      Books base (g.alloc s (addr + sizeofMetadata) size) H ∧
      (WayBack g.world.st.mem g.mapped → WayBack s.mem (g.mapped ++ [(addr, size)])) := by
  have hg := h.guarded
  have hfresh := hf.freshAnswer hg.head h.maps (fun r hr => h.mem_live.mpr (.inr ⟨r, hr, rfl⟩)) addr hsys
  have hhead : g.world.st.head ≠ 0 := by
    rw [hg.head]
    exact hg.arena.pos.ne'
  obtain ⟨m, q, he, hm, ho, hp, hps, hmarks⟩ := h.maps.malloc_large sys hg.cookie hhead hmin hmax hsys hfresh hn
  have hlt : addr < 2 ^ 64 := by
    have := hfresh.fits
    omega
  have hne : addr + sizeofMetadata ≠ 0 := by
    have := hfresh.pos
    omega
  have hmapped : ∀ s, (g.alloc s (addr + sizeofMetadata) size).mapped = g.mapped ++ [(addr, size)] := fun s => by
    rw [Ledger.alloc]
    dsimp only
    rw [if_pos ⟨hne, hmin⟩, headerOf_add hlt]
  have hpages : ∀ r ∈ g.mapped ++ [(addr, size)], startSize ∣ r.1 := by
    intro r hr
    rcases List.mem_append.mp hr with hr | hr
    · exact h.pages r hr
    · rw [List.mem_singleton.mp hr]
      exact (show startSize ∣ 4096 by decide).trans hpage
  have hfill : ∀ a < arenaUnits, slots base (g.world.st.mem.fill addr (sizeofMetadata + size) 0) a =
      slots base g.world.st.mem a := fun a ha => by
    refine slots_congr fun x h₁ h₂ => Mem.fill_out ?_
    have := hfresh.arena
    unfold startSize at *
    omega
  have hslots : ∀ a < arenaUnits, slots base m a =
      slots base (g.world.st.mem.fill addr (sizeofMetadata + size) 0) a := fun a ha =>
    ho.confined (fun r hr => hm.fresh hr) ha
  have hsane : ∀ q, SaneAt base g.world.st.mem q → SaneAt base m q := by
    rintro q ⟨a, ha, rfl, hs⟩
    exact ⟨a, ha, rfl, by rw [hslots a ha, hfill a ha]; exact hs⟩
  refine ⟨_, he, rfl, hmapped _, ⟨⟨hg.arena, hg.head, hg.cookie, ?_, ?_⟩, ?_, ?_, ?_, ?_⟩, fun hb => ?_⟩
  · refine (hmarks hpages).tame hg.arena hslots (tame_fill hg.tame ?_)
    have := hfresh.arena
    omega
  · exact fun k hk p hp => hsane p (hg.freed k hk p hp)
  · rw [hmapped]
    exact hm
  · rw [hmapped]
    exact hpages
  · intro p hp
    obtain ⟨q, rfl, hq⟩ := h.heap p hp
    exact ⟨q, rfl, hsane q hq⟩
  · rw [hmapped, List.map_append, ← List.append_assoc]
    show (track (addr + sizeofMetadata) g.world.live).Perm _
    rw [track, if_neg hne]
    exact (h.live.cons _).trans (List.perm_append_singleton _ _).symm
  · rw [WayBack, List.map_append]
    refine Back.push hb hp fun a ha => ?_
    obtain ⟨r, hr, rfl⟩ := List.mem_map.mp ha
    obtain ⟨v, hv⟩ := hps r hr
    simp only [hv]

/-- **A release of a pointer into the arena**, whatever its header is by now. -/
theorem free_heap (h : Books base g H) (hp : p ∈ H) (hs : free n g.world.st p = .ret s) :
    HeapStep base g.world.st s ∧ (g.release s p).mapped = g.mapped ∧ (g.release s p).released = g.released ∧
      Books base (g.release s p) (H.erase p) := by
  have hne : ∀ r ∈ g.mapped, r.1 + sizeofMetadata ≠ p := fun r hr => h.heap_ne_map hp hr
  have hperm : g.world.live.Perm (p :: (H.erase p ++ g.mapped.map fun r => r.1 + sizeofMetadata)) :=
    h.live.trans ((List.perm_cons_erase hp).append_right _)
  have hlive := hperm.erase p
  rw [List.erase_cons_head] at hlive
  obtain ⟨q, rfl, hq⟩ := h.heap p hp
  have hst := h.guarded.free hq hs
  have hmapped : (g.release s (q + sizeofMetadata)).mapped = g.mapped := filter_ne_self hne
  have hreleased : (g.release s (q + sizeofMetadata)).released = g.released := by
    rw [Ledger.release]
    dsimp only
    rw [filter_eq_nil hne, List.nil_append]
  have hb := h.heapStep hst (fun p hp => .inl (List.mem_of_mem_erase hp)) hlive
  refine ⟨hst, hmapped, hreleased, ?_⟩
  rw [← hmapped, ← hreleased] at hb
  exact hb

/-- **A release of a mapped block.** -/
theorem free_map (h : Books base g H) (hr : r ∈ g.mapped) (hn : g.mapped.length < n) :
    ∃ s, free n g.world.st (r.1 + sizeofMetadata) = .ret s ∧
      s.unmapped = (if g.world.st.mmapHead = r.1 then g.world.st.unmapped
        else (r.1, r.2 + sizeofMetadata) :: g.world.st.unmapped) ∧
      (g.release s (r.1 + sizeofMetadata)).mapped = g.mapped.erase r ∧
      (g.release s (r.1 + sizeofMetadata)).released = r :: g.released ∧
      Books base (g.release s (r.1 + sizeofMetadata)) H ∧
      (g.world.st.mmapHead ≠ r.1 → WayBack g.world.st.mem g.mapped → WayBack s.mem (g.mapped.erase r)) ∧
      (g.world.st.mmapHead = r.1 → s.mem = g.world.st.mem) := by
  have hg := h.guarded
  obtain ⟨m, q, us, he, hm, ho, hus, hback, hmarks, hmem⟩ := h.maps.free_mapped hr hn
  have hmapped : ∀ s, (g.release s (r.1 + sizeofMetadata)).mapped = g.mapped.erase r := fun s =>
    h.maps.filter_ne hr
  have hreleased : ∀ s, (g.release s (r.1 + sizeofMetadata)).released = r :: g.released := fun s => by
    rw [Ledger.release]
    dsimp only
    rw [h.maps.filter_eq hr, List.singleton_append]
  have hslots : ∀ a < arenaUnits, slots base m a = slots base g.world.st.mem a := fun a ha =>
    ho.confined (fun r hr => hm.fresh hr) ha
  have hsane : ∀ q, SaneAt base g.world.st.mem q → SaneAt base m q := by
    rintro q ⟨a, ha, rfl, hs⟩
    exact ⟨a, ha, rfl, by rw [hslots a ha]; exact hs⟩
  refine ⟨_, he, hus, hmapped _, hreleased _, ⟨⟨hg.arena, hg.head, hg.cookie, ?_, ?_⟩, ?_, ?_, ?_, ?_⟩, hback,
    hmem⟩
  · exact (hmarks h.pages).tame hg.arena hslots hg.tame
  · exact fun k hk p hp => hsane p (hg.freed k hk p hp)
  · rw [hmapped]
    exact hm
  · rw [hmapped]
    exact fun r' hr' => h.pages r' (List.mem_of_mem_erase hr')
  · intro p hp
    obtain ⟨q, rfl, hq⟩ := h.heap p hp
    exact ⟨q, rfl, hsane q hq⟩
  · rw [hmapped]
    have hperm : g.world.live.Perm ((r.1 + sizeofMetadata) ::
        (H ++ (g.mapped.erase r).map fun r => r.1 + sizeofMetadata)) :=
      h.live.trans ((((List.perm_cons_erase hr).map _).append_left H).trans List.perm_middle)
    have hlive := hperm.erase (r.1 + sizeofMetadata)
    rwa [List.erase_cons_head] at hlive

/-- The first of the mapped blocks, if there is one, is where `MMAPhead` leads. -/
theorem head_cases (h : Books base g H) :
    g.world.st.mmapHead = 0 ∨ ∃ r ∈ g.mapped, g.world.st.mmapHead = r.1 := by
  have hseg := h.maps.linked
  rcases hm : g.mapped with _ | ⟨r, L⟩
  · rw [hm] at hseg
    exact .inl hseg
  · rw [hm] at hseg
    exact .inr ⟨r, List.mem_cons_self, hseg.1⟩

end Books

/-- The step does not release the block at `MMAPhead`. -/
def SparesHead (g : Ledger) (op : Op) : Prop :=
  ∀ p, op = .sfree p → p ≠ g.world.st.mmapHead + sizeofMetadata

/-- What a step that releases no mapped block does: nothing was given back, nothing had to be. -/
structure NothingReleased (g : Ledger) (op : Op) (g' : Ledger) : Prop where
  spares : SparesHead g op
  released : g'.released = g.released
  unmapped : g'.world.st.unmapped = g.world.st.unmapped
  wayBack : WayBack g.world.st.mem g.mapped → WayBack g'.world.st.mem g'.mapped

/-- What a release of the mapped block `r` does. -/
structure MapReleased (g : Ledger) (op : Op) (r : ℕ × ℕ) (g' : Ledger) : Prop where
  op : op = .sfree (r.1 + sizeofMetadata)
  released : g'.released = r :: g.released
  unmapped : g'.world.st.unmapped = if g.world.st.mmapHead = r.1 then g.world.st.unmapped
    else (r.1, r.2 + sizeofMetadata) :: g.world.st.unmapped
  wayBack : g.world.st.mmapHead ≠ r.1 → WayBack g.world.st.mem g.mapped →
    WayBack g'.world.st.mem g'.mapped

namespace Books

variable {base : ℕ} {g g' : Ledger} {H : List ℕ} {op : Op}

theorem step_smalloc (h : Books base g H) {sys : Sys} {size p : ℕ} {s : State}
    (hpage : ∀ addr, sys.mmapAddr = some addr → 4096 ∣ addr)
    (hf : maxSize ≤ size → MmapFresh g.world sys size)
    (hs : Returns (fun n => Malloc3.smalloc sys n g.world.st size) (s, p)) :
    ∃ H', Books base (g.alloc s p size) H' ∧ NothingReleased g (.smalloc sys size) (g.alloc s p size) := by
  have hspares : SparesHead g (.smalloc sys size) := fun q hq => by cases hq
  obtain ⟨N, hN⟩ := hs
  have hcall : malloc sys (max N (g.mapped.length + 1)) g.world.st size = .ret (s, p) :=
    hN _ (le_max_left N (g.mapped.length + 1))
  by_cases hsize : size < maxSize
  · obtain ⟨hst, H', hb⟩ := h.alloc_small hsize hcall
    have hmapped : (g.alloc s p size).mapped = g.mapped := if_neg (by omega)
    refine ⟨H', hb, hspares, rfl, ?_, fun hw => ?_⟩
    · show s.unmapped = _
      rw [hst.frame]
    · rw [hmapped]
      exact hst.confined.wayBack h.maps hw
  · by_cases hmap : size ≤ maxSizeToAllocate ∧ sys.mmapAddr ≠ none
    · obtain ⟨addr, hsys⟩ := Option.ne_none_iff_exists'.mp hmap.2
      obtain ⟨s', he, hus, hmapped, hb, hw⟩ := h.alloc_map (n := max N (g.mapped.length + 1)) (by omega)
        hmap.1 hsys (hpage addr hsys) (hf (by omega)) (by omega)
      cases he.symm.trans hcall
      refine ⟨H, hb, hspares, rfl, hus, fun hw' => ?_⟩
      rw [hmapped]
      exact hw hw'
    · have hnull : malloc sys (max N (g.mapped.length + 1)) g.world.st size = .ret (g.world.st, 0) := by
        have hhead : g.world.st.head ≠ 0 := by
          rw [h.guarded.head]
          exact h.guarded.arena.pos.ne'
        rw [malloc, if_neg hhead]
        dsimp only
        by_cases hmax : maxSizeToAllocate < size
        · rw [if_pos (.inr hmax)]
        · have hnone : sys.mmapAddr = none := by
            by_contra hne
            exact hmap ⟨by omega, hne⟩
          rw [if_neg (by unfold maxSize at hsize; omega), if_pos (by omega), hnone]
      cases hnull.symm.trans hcall
      have hsame : g.alloc g.world.st 0 size = g := by
        rw [Ledger.alloc, if_neg (by simp), track, if_pos rfl]
      rw [hsame]
      exact ⟨H, h, hspares, rfl, rfl, id⟩

theorem step_sfree (h : Books base g H) {p : ℕ} {s : State} (hp : p = 0 ∨ p ∈ g.world.live)
    (hs : Returns (fun n => Malloc3.sfree n g.world.st p) s) :
    ∃ H', Books base (g.release s p) H' ∧ (NothingReleased g (.sfree p) (g.release s p) ∨
      ∃ r ∈ g.mapped, MapReleased g (.sfree p) r (g.release s p)) := by
  obtain ⟨N, hN⟩ := hs
  have hcall : free (max N (g.mapped.length + 1)) g.world.st p = .ret s :=
    hN _ (le_max_left N (g.mapped.length + 1))
  rcases hp with rfl | hp
  · rw [free, if_pos rfl] at hcall
    obtain rfl := Outcome.ret.inj hcall
    have hne : ∀ r ∈ g.mapped, r.1 + sizeofMetadata ≠ 0 := fun r _ => by simp [sizeofMetadata]
    have h0 : 0 ∉ g.world.live := by
      rw [h.mem_live]
      rintro (h0 | ⟨r, -, h0⟩)
      · obtain ⟨q, he, -⟩ := h.heap 0 h0
        simp [sizeofMetadata] at he
      · simp [sizeofMetadata] at h0
    have hsame : g.release g.world.st 0 = g := by
      rw [Ledger.release, filter_ne_self hne, filter_eq_nil hne, List.erase_of_not_mem h0, List.nil_append]
    rw [hsame]
    refine ⟨H, h, .inl ⟨fun q hq => ?_, rfl, rfl, id⟩⟩
    cases hq
    simp [sizeofMetadata]
  · rcases h.mem_live.mp hp with hp | ⟨r, hr, rfl⟩
    · obtain ⟨hst, hmapped, hreleased, hb⟩ := h.free_heap hp hcall
      refine ⟨_, hb, .inl ⟨fun q hq => ?_, hreleased, ?_, fun hw => ?_⟩⟩
      · cases hq
        rcases h.head_cases with h₀ | ⟨r, hr, he⟩
        · obtain ⟨q, rfl, a, -, rfl, -⟩ := h.heap p hp
          have := h.guarded.arena.pos
          omega
        · rw [he]
          exact (h.heap_ne_map hp hr).symm
      · show s.unmapped = _
        rw [hst.frame]
      · rw [hmapped]
        exact hst.confined.wayBack h.maps hw
    · obtain ⟨s', he, hus, hmapped, hreleased, hb, hw, -⟩ := h.free_map (n := max N (g.mapped.length + 1)) hr
        (by omega)
      obtain rfl := Outcome.ret.inj (he.symm.trans hcall)
      refine ⟨H, hb, .inr ⟨r, hr, rfl, hreleased, hus, fun hne hw' => ?_⟩⟩
      rw [hmapped]
      exact hw hne hw'

/-- **One step.** -/
theorem step (h : Books base g H) (hs : LedgerStep g op g') : ∃ H', Books base g' H' ∧
    (NothingReleased g op g' ∨ ∃ r ∈ g.mapped, MapReleased g op r g') := by
  cases hs with
  | smalloc hpage hf hs =>
    obtain ⟨H', hb, hn⟩ := h.step_smalloc hpage hf hs
    exact ⟨H', hb, .inl hn⟩
  | sfree hp hs => exact h.step_sfree hp hs

end Books

/-- Before the first call. -/
def Ledger.start (m : Mem) (ck brk : ℕ) : Ledger := ⟨Malloc3.start m ck brk, [], []⟩

theorem HdrOk.sane {base ck a k : ℕ} {h : MallocMetadata} (ho : HdrOk base ck a k h) (hk : k ≤ maxOrder)
    (hfit : a + 2 ^ k ≤ arenaUnits) : Sane base h := by
  refine ⟨ho.isMmap, ?_, ?_, ?_⟩
  · rw [ho.order]
    exact Int.natCast_nonneg k
  · rw [ho.order]
    unfold maxOrder at hk
    omega
  · rw [ho.next, nextAddr]
    split_ifs with he
    · exact .inl rfl
    · exact .inr ⟨a + 2 ^ k, by omega, rfl⟩

theorem books_start {m : Mem} {ck brk : ℕ} (hb : Boots ck brk) (hm : Unmarked (arenaBase brk) m) :
    Books (arenaBase brk) (.start m ck brk) [] := by
  have hi := inv_initArena m hb true
  have hT := hi.repr.heap.tiles
  have ho := initArena_outside m hb true
  have hsane : ∀ {a c}, fresh maxOrder arenaUnits a = some c →
      Sane (arenaBase brk) (slots (arenaBase brk) (initArena (boot m ck brk) true).mem a) := fun ha =>
    (hi.repr.heap.hdrs ha).sane (hT.le_max ha) (hT.fits ha)
  refine ⟨⟨hb.arena, hi.head, hi.repr.cookie, ⟨fun a ha hf => ?_, fun a ha => ?_⟩, fun k hk p hp => ?_⟩, hi.maps,
    by simp [Ledger.start], by simp, .refl _⟩
  · by_cases hB : ∃ c, fresh maxOrder arenaUnits a = some c
    · obtain ⟨c, hc⟩ := hB
      exact hsane hc
    · -- no header was written there
      have hsame : slots (arenaBase brk) (initArena (boot m ck brk) true).mem a = slots (arenaBase brk) m a := by
        refine slots_congr fun x h₁ h₂ => ho x fun u c hu => ?_
        have hne : u ≠ a := fun e => hB ⟨c, e ▸ hu⟩
        unfold startSize at *
        omega
      have hf' : (slots (arenaBase brk) (initArena (boot m ck brk) true).mem a).isFree = true := hf
      rw [hsame, (hm a ha).1] at hf'
      cases hf'
  · have hout := (across_out hb.arena ha).2
    have hsame : hdr (initArena (boot m ck brk) true).mem (across (arenaBase brk) a) =
        hdr m (across (arenaBase brk) a) :=
      hdr_congr fun x h₁ h₂ => ho.out hT (by omega)
    exact (congrArg MallocMetadata.isFree hsame).trans (hm a ha).2
  · obtain ⟨a, rfl, ha⟩ := (hi.repr.lists.mem hk p).mp hp
    exact ⟨a, hT.lt ha, rfl, hsane ha⟩

/-! ## The list is what was written down -/

/-- The allocator without its mapped blocks. -/
def withoutMaps (s : State) : State := { s with mmapHead := 0 }

/-- **The list from `MMAPhead` is what was written down**: the mapped blocks the client holds, oldest first,
each once and with the size that was requested; and the two statistics are those of the arena with each of
these blocks counted once. -/
structure ListsMapped (g : Ledger) : Prop where
  linked : Seg (fun a => (hdr g.world.st.mem a).next) g.world.st.mmapHead (g.mapped.map Prod.fst) 0
  nodup : (g.mapped.map Prod.fst).Nodup
  sizes : ∀ r ∈ g.mapped, (hdr g.world.st.mem r.1).size = r.2
  live : ∀ p, (p ∈ g.world.live ∧ (hdr g.world.st.mem (headerOf p)).isMmap = true) ↔
    ∃ r ∈ g.mapped, p = r.1 + sizeofMetadata
  blocks : ∀ n, g.mapped.length < n → numAllocatedBlocks n g.world.st =
    numAllocatedBlocks n (withoutMaps g.world.st) >>= fun c => .ret ((c + g.mapped.length) % 2 ^ 64)
  bytes : ∀ n, g.mapped.length < n → numAllocatedBytes n g.world.st =
    numAllocatedBytes n (withoutMaps g.world.st) >>= fun c => .ret ((c + (g.mapped.map Prod.snd).sum) % 2 ^ 64)

namespace Books

variable {base : ℕ} {g : Ledger} {H : List ℕ}

theorem live_iff (h : Books base g H) (p : ℕ) :
    (p ∈ g.world.live ∧ (hdr g.world.st.mem (headerOf p)).isMmap = true) ↔
      ∃ r ∈ g.mapped, p = r.1 + sizeofMetadata := by
  constructor
  · rintro ⟨hp, hmm⟩
    refine (h.mem_live.mp hp).resolve_left fun hp => ?_
    obtain ⟨-, rfl, a, ha, rfl, hs⟩ := h.heap p hp
    have hlt : base + startSize * a < 2 ^ 64 := by
      have := h.guarded.arena.fits
      unfold startSize at *
      omega
    rw [headerOf_add hlt, hdr_slot, hs.isMmap] at hmm
    cases hmm
  · rintro ⟨r, hr, rfl⟩
    refine ⟨h.mem_live.mpr (.inr ⟨r, hr, rfl⟩), ?_⟩
    rw [headerOf_add (h.map_lt hr)]
    exact (h.maps.hdrs hr).isMmap

theorem blocks (h : Books base g H) {n : ℕ} (hn : g.mapped.length < n) : numAllocatedBlocks n g.world.st =
    numAllocatedBlocks n (withoutMaps g.world.st) >>= fun c => .ret ((c + g.mapped.length) % 2 ^ 64) := by
  have hnil : ∀ c, forEach g.world.st.mem (fun counter _ => .ret ((counter + 1) % 2 ^ 64)) n 0 c = .ret c :=
    fun c => walk_spec (l := []) rfl (Nat.zero_lt_of_lt hn)
  have hlen : (g.mapped.map Prod.fst).length = g.mapped.length := List.length_map _
  rw [numAllocatedBlocks, numAllocatedBlocks, getNumberOfAllocatedBlocks, getNumberOfAllocatedBlocks, withoutMaps]
  dsimp only
  cases hX : forEach g.world.st.mem (fun counter _ => .ret ((counter + 1) % 2 ^ 64)) n g.world.st.head 0 with
  | ret c =>
    have hc : c < 2 ^ 64 := walk_keeps (P := fun c => c < 2 ^ 64)
      (fun _ _ _ _ he => Outcome.ret.inj he ▸ Nat.mod_lt _ (by norm_num)) (by norm_num) hX
    rw [Outcome.ret_bind, Outcome.ret_bind, hnil, Outcome.ret_bind, forEach,
      walk_spec h.maps.linked (by omega), foldlM_add_mod (f := fun _ => 1) hc, sum_map_one, hlen]
  | exit c => rfl
  | ub => rfl
  | fuel => rfl

theorem bytes (h : Books base g H) {n : ℕ} (hn : g.mapped.length < n) : numAllocatedBytes n g.world.st =
    numAllocatedBytes n (withoutMaps g.world.st) >>= fun c =>
      .ret ((c + (g.mapped.map Prod.snd).sum) % 2 ^ 64) := by
  have hnil : ∀ c, forEach g.world.st.mem (fun numBytes curr =>
      .ret ((numBytes + (hdr g.world.st.mem curr).size) % 2 ^ 64)) n 0 c = .ret c :=
    fun c => walk_spec (l := []) rfl (Nat.zero_lt_of_lt hn)
  have hlen : (g.mapped.map Prod.fst).length = g.mapped.length := List.length_map _
  have hsum : ((g.mapped.map Prod.fst).map fun a => (hdr g.world.st.mem a).size).sum =
      (g.mapped.map Prod.snd).sum := h.maps.sizes_eq
  have hhead : g.world.st.head ≠ 0 := by
    rw [h.guarded.head]
    exact h.guarded.arena.pos.ne'
  rw [numAllocatedBytes, numAllocatedBytes, getNumberOfAllocatedBytes, getNumberOfAllocatedBytes, withoutMaps]
  dsimp only
  rw [if_neg hhead, if_neg hhead]
  cases forEach g.world.st.mem (fun (acc : ℕ × ℕ) curr =>
      if acc.1 < intMax then .ret (acc.1 + 1, curr) else .ub) n g.world.st.head (0, g.world.st.head) with
  | ret r =>
    rw [Outcome.ret_bind, Outcome.ret_bind, hnil, Outcome.ret_bind, forEach,
      walk_spec h.maps.linked (by omega), foldlM_add_mod (subSize_lt _ _), hsum]
  | exit c => rfl
  | ub => rfl
  | fuel => rfl

theorem listsMapped (h : Books base g H) : ListsMapped g :=
  ⟨h.maps.linked, h.maps.nodup, fun _ hr => (h.maps.hdrs hr).size, h.live_iff, fun _ hn => h.blocks hn,
    fun _ hn => h.bytes hn⟩

end Books

theorem start_unmapped {m : Mem} {ck brk : ℕ} (hb : Boots ck brk) :
    (Ledger.start m ck brk).world.st.unmapped = [] := by
  obtain ⟨m', b, he, -⟩ := initArena_eq m hb true
  show (initArena (boot m ck brk) true).unmapped = []
  rw [he]

/-- What is written down stays in step with the allocator. -/
theorem exists_books {m : Mem} {ck brk : ℕ} (hb : Boots ck brk) (hm : Unmarked (arenaBase brk) m) {ops : List Op}
    {g : Ledger} (hrun : Run LedgerStep (.start m ck brk) ops g) : ∃ H, Books (arenaBase brk) g H := by
  refine hrun.invariant (I := fun g => ∃ H, Books (arenaBase brk) g H) ⟨[], books_start hb hm⟩
    fun t l u ⟨H, h⟩ hs => ?_
  obtain ⟨H', h', -⟩ := h.step hs
  exact ⟨H', h'⟩

/-! ## Two mapped blocks -/

namespace Books

variable {base : ℕ} {g : Ledger} {H : List ℕ}

theorem exists_alloc (h : Books base g H) {sys : Sys} {size addr : ℕ} (hmin : maxSize ≤ size)
    (hmax : size ≤ maxSizeToAllocate) (hsys : sys.mmapAddr = some addr) (hpage : 4096 ∣ addr)
    (hf : MmapFresh g.world sys size) : ∃ g', LedgerStep g (.smalloc sys size) g' ∧ Books base g' H ∧
      g'.mapped = g.mapped ++ [(addr, size)] ∧ g'.released = g.released ∧
      g'.world.live = (addr + sizeofMetadata) :: g.world.live ∧
      g'.world.st.unmapped = g.world.st.unmapped ∧
      (WayBack g.world.st.mem g.mapped → WayBack g'.world.st.mem g'.mapped) := by
  obtain ⟨s, he, hus, hmapped, hb, hw⟩ :=
    h.alloc_map (n := g.mapped.length + 1) hmin hmax hsys hpage hf (Nat.lt_succ_self _)
  have hcall : LedgerStep g (.smalloc sys size) (g.alloc s (addr + sizeofMetadata) size) := by
    refine .smalloc (fun a ha => ?_) (fun _ => hf) (settles_malloc.returns he)
    rw [hsys] at ha
    exact Option.some.inj ha ▸ hpage
  refine ⟨_, hcall, hb, hmapped, rfl, ?_, hus, fun hw' => ?_⟩
  · show track (addr + sizeofMetadata) g.world.live = _
    rw [track, if_neg (by unfold sizeofMetadata; omega)]
  · rw [hmapped]
    exact hw hw'

theorem exists_release (h : Books base g H) {r : ℕ × ℕ} (hr : r ∈ g.mapped) :
    ∃ g', LedgerStep g (.sfree (r.1 + sizeofMetadata)) g' ∧ g'.mapped = g.mapped.erase r ∧
      g'.released = r :: g.released ∧
      g'.world.st.unmapped = (if g.world.st.mmapHead = r.1 then g.world.st.unmapped
        else (r.1, r.2 + sizeofMetadata) :: g.world.st.unmapped) ∧
      (g.world.st.mmapHead = r.1 → g'.world.st.mem = g.world.st.mem) := by
  obtain ⟨s, he, hus, hmapped, hreleased, -, -, hmem⟩ := h.free_map (n := g.mapped.length + 1) hr
    (Nat.lt_succ_self _)
  exact ⟨_, .sfree (.inr (h.mem_live.mpr (.inr ⟨r, hr, rfl⟩))) (settles_free.returns he), hmapped, hreleased, hus,
    hmem⟩

theorem mmapHead_eq (h : Books base g H) {r : ℕ × ℕ} {L : List (ℕ × ℕ)} (hL : g.mapped = r :: L) :
    g.world.st.mmapHead = r.1 := by
  have hseg := h.maps.linked
  rw [hL] at hseg
  exact hseg.1

/-- The block at `MMAPhead` can be released; memory stays as it is. -/
theorem exists_release_head (h : Books base g H) {r : ℕ × ℕ} {L : List (ℕ × ℕ)} (hL : g.mapped = r :: L) :
    ∃ g', LedgerStep g (.sfree (r.1 + sizeofMetadata)) g' ∧ g'.mapped = L ∧ g'.released = r :: g.released ∧
      g'.world.st.unmapped = g.world.st.unmapped ∧ g'.world.st.mem = g.world.st.mem := by
  have hhead := h.mmapHead_eq hL
  obtain ⟨g', hs, hmapped, hreleased, hus, hmem⟩ := h.exists_release (r := r) (by simp [hL])
  refine ⟨g', hs, ?_, hreleased, hus.trans (if_pos hhead), hmem hhead⟩
  rw [hmapped, hL, List.erase_cons_head]

/-- Without blocks of the arena, `mmap` need only keep clear of the mapped ones. -/
theorem mmapFresh (h : Books base g []) {sys : Sys} {addr size : ℕ} (hsys : sys.mmapAddr = some addr)
    (hf : Fresh base g.mapped addr size) : MmapFresh g.world sys size := by
  intro a ha
  rw [hsys] at ha
  obtain rfl := Option.some.inj ha
  refine ⟨hf.pos, hf.fits, h.guarded.head ▸ hf.arena, fun p hp => ?_⟩
  rcases h.mem_live.mp hp with hp | ⟨r, hr, rfl⟩
  · cases hp
  · have hapart := hf.apart r hr
    rw [payloadLen, headerOf_add (h.map_lt hr), (h.maps.hdrs hr).size]
    exact hapart

end Books

/-- Two mapped blocks. -/
theorem exists_twoMaps : ∃ g, Run LedgerStep (.start (fun _ => 0) 0 4198400)
      [.smalloc ⟨true, some 1073741824⟩ 200000, .smalloc ⟨true, some 2147483648⟩ 300000] g ∧
    Books 8388608 g [] ∧ g.mapped = [(1073741824, 200000), (2147483648, 300000)] ∧ g.released = [] ∧
    g.world.st.unmapped = [] ∧ WayBack g.world.st.mem g.mapped := by
  have h₀ := books_start (m := fun _ => 0) boots_example fun _ _ => ⟨rfl, rfl⟩
  rw [arenaBase_example] at h₀
  have hus₀ := start_unmapped (m := fun _ => 0) boots_example
  have hf₁ : MmapFresh _ ⟨true, some 1073741824⟩ 200000 :=
    h₀.mmapFresh rfl ⟨by decide, by decide, by decide, fun r hr => by cases hr⟩
  obtain ⟨g₁, hs₁, h₁, hm₁, hr₁, -, hus₁, hw₁⟩ :=
    h₀.exists_alloc (by decide) (by decide) rfl (by norm_num) hf₁
  have hm₁ : g₁.mapped = [(1073741824, 200000)] := hm₁
  have hf₂ : MmapFresh g₁.world ⟨true, some 2147483648⟩ 300000 :=
    h₁.mmapFresh rfl ⟨by decide, by decide, by decide, by rw [hm₁]; decide⟩
  obtain ⟨g₂, hs₂, h₂, hm₂, hr₂, -, hus₂, hw₂⟩ :=
    h₁.exists_alloc (by decide) (by decide) rfl (by norm_num) hf₂
  exact ⟨g₂, .cons hs₁ (.cons hs₂ (.nil _)), h₂, by rw [hm₂, hm₁]; rfl, hr₂.trans hr₁,
    hus₂.trans (hus₁.trans hus₀), hw₂ (hw₁ trivial)⟩

/-! ## The results -/

/-- **The list of mapped blocks is right after every run of `smalloc` and `sfree`.** -/
theorem mmap_list_is_ledger {m : Mem} {ck brk : ℕ} (hb : Boots ck brk) (hm : Unmarked (arenaBase brk) m)
    {ops : List Op} {g : Ledger} (hrun : Run LedgerStep (.start m ck brk) ops g) : ListsMapped g := by
  obtain ⟨H, h⟩ := exists_books hb hm hrun
  exact h.listsMapped

/-- Two blocks are mapped, and the older one is released. -/
theorem mmap_list_is_ledger_one_left : ∃ g, Run LedgerStep (.start (fun _ => 0) 0 4198400)
    [.smalloc ⟨true, some 1073741824⟩ 200000, .smalloc ⟨true, some 2147483648⟩ 300000, .sfree 1073741864] g ∧
    g.mapped = [(2147483648, 300000)] ∧ ListsMapped g := by
  obtain ⟨g, hrun, h, hm, -⟩ := exists_twoMaps
  obtain ⟨g', hs, hm', -⟩ := h.exists_release_head hm
  have hrun' := hrun.snoc hs
  exact ⟨g', hrun', hm', mmap_list_is_ledger boots_example (fun _ _ => ⟨rfl, rfl⟩) hrun'⟩

/-- **What was released went back**: the calls of `munmap` are the blocks that were released, each once and in
full length, and the blocks that are left lead back to each other. -/
structure GivesBack (g : Ledger) : Prop where
  unmapped : g.world.st.unmapped.Perm (g.released.map fun r => (r.1, r.2 + sizeofMetadata))
  wayBack : WayBack g.world.st.mem g.mapped

/-- A step that does not release the block at `MMAPhead`. -/
def InteriorStep (g : Ledger) (op : Op) (g' : Ledger) : Prop := LedgerStep g op g' ∧ SparesHead g op

theorem GivesBack.step {g g' : Ledger} {op : Op} (h : GivesBack g) (hspares : SparesHead g op)
    (hs : NothingReleased g op g' ∨ ∃ r ∈ g.mapped, MapReleased g op r g') : GivesBack g' := by
  rcases hs with hn | ⟨r, -, hr⟩
  · refine ⟨?_, hn.wayBack h.wayBack⟩
    rw [hn.released, hn.unmapped]
    exact h.unmapped
  · have hne : g.world.st.mmapHead ≠ r.1 := fun he => hspares _ hr.op (by rw [he])
    refine ⟨?_, hr.wayBack hne h.wayBack⟩
    rw [hr.released, hr.unmapped, if_neg hne]
    exact h.unmapped.cons _

/-- A release of the block at `MMAPhead` leaves a call of `munmap` out, and nothing makes up for it. -/
theorem interior_or_fewer {base : ℕ} {g₀ g : Ledger} {ops : List Op} {H : List ℕ} (h₀ : Books base g₀ H)
    (hg₀ : g₀.world.st.unmapped.length = g₀.released.length) (hrun : Run LedgerStep g₀ ops g) :
    (∃ H, Books base g H) ∧ (Run InteriorStep g₀ ops g ∧ g.world.st.unmapped.length = g.released.length ∨
      g.world.st.unmapped.length < g.released.length) := by
  induction hrun with
  | nil => exact ⟨⟨H, h₀⟩, .inl ⟨.nil _, hg₀⟩⟩
  | snoc hrun hs ih =>
    obtain ⟨⟨H, h⟩, hor⟩ := ih
    obtain ⟨H', h', hcase⟩ := h.step hs
    refine ⟨⟨H', h'⟩, ?_⟩
    rcases hcase with hn | ⟨r, hrm, hr⟩
    · rw [hn.released, hn.unmapped]
      exact hor.imp_left fun ⟨hint, hlen⟩ => ⟨hint.snoc ⟨hs, hn.spares⟩, hlen⟩
    · rw [hr.released, hr.unmapped, List.length_cons]
      split_ifs with hhead
      · right
        rcases hor with ⟨-, hlen⟩ | hlt <;> omega
      · rw [List.length_cons]
        refine hor.imp (fun ⟨hint, hlen⟩ => ⟨hint.snoc ⟨hs, fun p hp he => ?_⟩, by omega⟩) fun hlt => by omega
        rw [hr.op] at hp
        cases hp
        omega

/-- **Exactly the release of the block at `MMAPhead` goes wrong**: everything that was released went back to
the system and the links back are right, if and only if no step of the run released that block. -/
theorem gives_back_iff {m : Mem} {ck brk : ℕ} (hb : Boots ck brk) (hm : Unmarked (arenaBase brk) m)
    {ops : List Op} {g : Ledger} (hrun : Run LedgerStep (.start m ck brk) ops g) :
    GivesBack g ↔ Run InteriorStep (.start m ck brk) ops g := by
  have h₀ := books_start hb hm
  have hus := start_unmapped (m := m) hb
  constructor
  · intro h
    have hlen := h.unmapped.length_eq
    rw [List.length_map] at hlen
    obtain ⟨-, ⟨hint, -⟩ | hlt⟩ := interior_or_fewer h₀ (by rw [hus]; rfl) hrun
    · exact hint
    · omega
  · intro hint
    have hkeep := hint.invariant (I := fun g => (∃ H, Books (arenaBase brk) g H) ∧ GivesBack g)
      ⟨⟨[], h₀⟩, by rw [hus]; exact .refl _, trivial⟩ fun t l u ⟨⟨H, h⟩, hgb⟩ hs => by
        obtain ⟨H', h', hcase⟩ := h.step hs.1
        exact ⟨⟨H', h'⟩, hgb.step hs.2 hcase⟩
    exact hkeep.2

/-- Of three mapped blocks the middle one is released. -/
theorem gives_back_iff_middle : ∃ g, Run LedgerStep (.start (fun _ => 0) 0 4198400)
    [.smalloc ⟨true, some 1073741824⟩ 200000, .smalloc ⟨true, some 2147483648⟩ 300000,
      .smalloc ⟨true, some 3221225472⟩ 400000, .sfree 2147483688] g ∧
    g.released = [(2147483648, 300000)] ∧ g.mapped = [(1073741824, 200000), (3221225472, 400000)] ∧ GivesBack g := by
  obtain ⟨g₂, hrun₂, h₂, hm₂, hr₂, hus₂, hw₂⟩ := exists_twoMaps
  have hf₃ : MmapFresh g₂.world ⟨true, some 3221225472⟩ 400000 :=
    h₂.mmapFresh rfl ⟨by decide, by decide, by decide, by rw [hm₂]; decide⟩
  obtain ⟨g₃, hs₃, h₃, hm₃, hr₃, -, hus₃, hw₃⟩ :=
    h₂.exists_alloc (by decide) (by decide) rfl (by norm_num) hf₃
  have hm₃ : g₃.mapped = [(1073741824, 200000), (2147483648, 300000), (3221225472, 400000)] := by
    rw [hm₃, hm₂]
    rfl
  have hrun₃ := hrun₂.snoc hs₃
  have hinterior := (gives_back_iff boots_example (fun _ _ => ⟨rfl, rfl⟩) hrun₃).mp
    ⟨by rw [hus₃, hus₂, hr₃, hr₂]; exact .refl _, hw₃ hw₂⟩
  obtain ⟨g, hs, hm, hr, -, -⟩ := h₃.exists_release (r := (2147483648, 300000)) (by rw [hm₃]; decide)
  refine ⟨g, hrun₃.snoc hs, by rw [hr, hr₃, hr₂], by rw [hm, hm₃]; decide, ?_⟩
  refine (gives_back_iff boots_example (fun _ _ => ⟨rfl, rfl⟩) (hrun₃.snoc hs)).mpr
    (hinterior.snoc ⟨hs, fun p hp => ?_⟩)
  cases hp
  rw [h₃.mmapHead_eq hm₃]
  decide

/-- **The first of two mapped blocks is released**: it is not given back, and the block behind it still leads
back to it. -/
theorem first_map_not_given_back : ∃ g, Run LedgerStep (.start (fun _ => 0) 0 4198400)
    [.smalloc ⟨true, some 1073741824⟩ 200000, .smalloc ⟨true, some 2147483648⟩ 300000, .sfree 1073741864] g ∧
    g.released = [(1073741824, 200000)] ∧ g.mapped = [(2147483648, 300000)] ∧ g.world.st.unmapped = [] ∧
    (hdr g.world.st.mem 2147483648).prev = 1073741824 ∧ ¬ GivesBack g := by
  obtain ⟨g, hrun, h, hm, hr, hus, hw⟩ := exists_twoMaps
  obtain ⟨g', hs, hm', hr', hus', hmem⟩ := h.exists_release_head hm
  rw [hr] at hr'
  rw [hus] at hus'
  have hprev : (hdr g'.world.st.mem 2147483648).prev = 1073741824 := by
    rw [hm] at hw
    rw [hmem]
    exact hw.2.1
  refine ⟨g', hrun.snoc hs, hr', hm', hus', hprev, fun hgb => ?_⟩
  have hback := hgb.wayBack
  rw [hm'] at hback
  exact absurd (hprev.symm.trans hback.1) (by norm_num)

end OsHomework.Malloc3
