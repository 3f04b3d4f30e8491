import OsHomework.Malloc2.Runs

/-!
# `malloc_2`: what is in memory

The client uses only the pointers it holds, and writes into their payloads.

* `Live s l live`: the blocks in use are those of the pointers the client holds; `Live.taken`,
  `Live.free` and **`Effect.keeps_live`**: it stays so;
* **`Effect.frame`**: a call changes no byte of a payload, but of the block it returns;
* `PayloadsApart`: the payloads do not overlap each other nor a header; `KeepsContents`: what a call
  may do to the contents;
* **`memory_contents`**: both hold in every run.
-/

set_option autoImplicit false

namespace OsHomework.Malloc2

/-- **The blocks in use are those of the pointers `live`.** -/
structure Live (s : State) (l live : List ℕ) : Prop where
  nodup : live.Nodup
  block : ∀ p ∈ live, ∃ a ∈ l, p = a + sizeofMetadata
  used : ∀ a ∈ l, a + sizeofMetadata ∈ live ↔ (hdr s.mem a).isFree = false

section Live

variable {brk₀ : ℕ} {s s' : State} {l l' live : List ℕ} {a size : ℕ}

theorem Live.ne_zero (h : Live s l live) : 0 ∉ live := fun h0 => by
  obtain ⟨a, -, ha⟩ := h.block 0 h0
  unfold sizeofMetadata at ha
  omega

theorem Live.taken (h : Live s l live) (ht : Taken s s' l l' size a) :
    Live s' l' ((a + sizeofMetadata) :: live) where
  nodup := by
    refine List.nodup_cons.mpr ⟨fun ha => ?_, h.nodup⟩
    obtain ⟨b, hb, hab⟩ := h.block _ ha
    obtain rfl : a = b := Nat.add_right_cancel hab
    have h₁ := (h.used a hb).mp ha
    rw [ht.wasFree hb] at h₁
    cases h₁
  block := fun p hp => by
    rcases List.mem_cons.mp hp with rfl | hp
    · exact ⟨a, ht.mem, rfl⟩
    · obtain ⟨b, hb, rfl⟩ := h.block p hp
      exact ⟨b, ht.sub hb, rfl⟩
  used := fun b hb => by
    by_cases hba : b = a
    · rw [hba, ht.used]
      simp
    · have hb' : b ∈ l := (ht.old_or_new b hb).resolve_right hba
      rw [ht.marks b hb' hba, ← h.used b hb', List.mem_cons]
      exact or_iff_right fun he => hba (Nat.add_right_cancel he)

theorem Live.free (h : Live s l live) (hl : Layout brk₀ s l) (ha : a ∈ l) :
    Live (free s (a + sizeofMetadata)) l (live.erase (a + sizeofMetadata)) where
  nodup := h.nodup.erase _
  block := fun p hp => h.block p (List.mem_of_mem_erase hp)
  used := fun b hb => by
    rw [Malloc2.free, hl.headerOf_add ha]
    simp only [hl.hdr_mark ha true hb]
    by_cases hba : b = a
    · rw [hba, if_pos rfl]
      simp [h.nodup.not_mem_erase]
    · rw [if_neg hba, ← h.used b hb]
      exact List.mem_erase_of_ne fun he => hba (Nat.add_right_cancel he)

theorem Live.perm {live' : List ℕ} (h : Live s l live) (hp : live.Perm live') : Live s l live' :=
  ⟨hp.nodup_iff.mp h.nodup, fun p hm => h.block p (hp.mem_iff.mpr hm),
    fun a ha => hp.mem_iff.symm.trans (h.used a ha)⟩

theorem Live.of_headers {m : Mem} (h : Live s l live) (hm : ∀ b ∈ l, hdr m b = hdr s.mem b) :
    Live { s with mem := m } l live :=
  ⟨h.nodup, h.block, fun b hb => by
    show _ ↔ (hdr m b).isFree = false
    rw [hm b hb]
    exact h.used b hb⟩

theorem AllocTo.keeps_live {r : ℕ} (h : AllocTo s l size s' r l') (hv : Live s l live) :
    Live s' l' (track r live) := by
  cases h with
  | null => exact hv
  | taken ht =>
    rw [track, if_neg (by unfold sizeofMetadata; omega)]
    exact hv.taken ht

/-- **Every call keeps the correspondence.** -/
theorem Effect.keeps_live {op : Op} {r : ℕ} (h : Effect brk₀ s l op s' r l') (hl : Layout brk₀ s l)
    (hv : Live s l live) (hop : Admissible live s op) :
    Live s' l' (holds live r op) := by
  have hp : ∀ b : ℕ, b + sizeofMetadata ≠ 0 := fun b => by unfold sizeofMetadata; omega
  cases h with
  | smalloc h => exact h.keeps_live hv
  | scalloc h => exact h.keeps_live hv
  | sfree ha => exact hv.free hl ha
  | sreallocNull h =>
    have hr := h.keeps_live hv
    rw [track] at hr
    rw [holds, List.erase_of_not_mem hv.ne_zero]
    exact hr
  | sreallocFails => exact hv
  | @sreallocKeeps ok a size ha hs =>
    -- the client held the pointer already, so only the order of the list changes
    rw [holds, if_neg (hp a)]
    exact hv.perm (List.perm_cons_erase (hop.resolve_left (hp a)))
  | @sreallocMoves ok a b size s₁ l₁ hb hs hl₁ h hc =>
    have hab := h.ne_of_lt hb hs
    rw [holds, if_neg (hp a), ← List.erase_cons_tail (by simpa using hab)]
    exact (hv.taken h).free hl₁ (h.sub hb)
  | write ha hx =>
    refine hv.of_headers fun b hb => hdr_eq_of_offHeaders hb fun y hy => Function.update_of_ne ?_ _ _
    rintro rfl
    exact hy (hl.offHeaders ha hx)

end Live

/-! ## Contents -/

/-- A byte of the payload at `p`. -/
def Payload (s : State) (p x : ℕ) : Prop := p ≤ x ∧ x < p + payloadLen s p

section Contents

variable {brk₀ : ℕ} {s s' : State} {l l' : List ℕ} {b r x : ℕ}

theorem Layout.payload_iff (h : Layout brk₀ s l) (hb : b ∈ l) :
    Payload s (b + sizeofMetadata) x ↔ InPayload s.mem b x := by
  rw [Payload, payloadLen, h.headerOf_add hb, InPayload]

theorem Layout.free_frame (h : Layout brk₀ s l) (hb : b ∈ l) (hx : OffHeaders l x) :
    (Malloc2.free s (b + sizeofMetadata)).mem x = s.mem x := by
  rw [Malloc2.free, h.headerOf_add hb]
  exact setIsFree_out _ _ _ (hx b hb)

theorem Taken.inPayload {size a : ℕ} (h : Taken s s' l l' size a) (hb : b ∈ l)
    (hx : InPayload s.mem b x) : InPayload s'.mem b x := by
  rw [InPayload, h.sizes b hb]
  exact hx

theorem Taken.frame_payload {size a : ℕ} (h : Taken s s' l l' size a) (hl' : Layout brk₀ s' l')
    (hb : b ∈ l) (hba : b ≠ a) (hx : InPayload s.mem b x) : s'.mem x = s.mem x := by
  have hx' := h.inPayload hb hx
  exact h.frame x (hl'.offHeaders (h.sub hb) hx') fun ha =>
    hba (hl'.payload_unique (h.sub hb) h.mem hx' ha)

theorem AllocTo.frame {size : ℕ} (h : AllocTo s l size s' r l') (hl' : Layout brk₀ s' l')
    (hb : b ∈ l) (hr : b + sizeofMetadata ≠ r) (hx : InPayload s.mem b x) :
    s'.mem x = s.mem x := by
  cases h with
  | null => rfl
  | taken ht => exact ht.frame_payload hl' hb (fun he => hr (by rw [he])) hx

/-- The client calls the allocator. -/
def Op.isCall : Op → Prop
  | .write _ _ => False
  | _ => True

/-- **A call changes no byte of a payload, but of the block it returns.** -/
theorem Effect.frame {op : Op} (h : Effect brk₀ s l op s' r l') (hl : Layout brk₀ s l)
    (hl' : Layout brk₀ s' l') (hop : op.isCall) (hb : b ∈ l) (hr : b + sizeofMetadata ≠ r)
    (hx : InPayload s.mem b x) : s'.mem x = s.mem x := by
  cases h with
  | smalloc h => exact h.frame hl' hb hr hx
  | scalloc h => exact h.frame hl' hb hr hx
  | sfree ha => exact hl.free_frame ha (hl.offHeaders hb hx)
  | sreallocNull h => exact h.frame hl' hb hr hx
  | sreallocFails => rfl
  | sreallocKeeps ha hs => rfl
  | sreallocMoves hc hs hl₁ h hcopy =>
    rw [hl₁.free_frame (h.sub hc) (hl₁.offHeaders (h.sub hb) (h.inPayload hb hx))]
    exact h.frame_payload hl₁ hb (fun he => hr (by rw [he])) hx
  | write ha hx => exact hop.elim

end Contents

/-! ## Every run -/

/-- **The payloads of the pointers `live` do not overlap each other nor a header.** -/
structure PayloadsApart (s : State) (l live : List ℕ) : Prop where
  nodup : live.Nodup
  disjoint : ∀ p ∈ live, ∀ q ∈ live, p ≠ q → ∀ x, ¬ (Payload s p x ∧ Payload s q x)
  headers : ∀ p ∈ live, ∀ x, Payload s p x → OffHeaders l x

/-- **What a call may do to the contents**: it changes no payload that the client holds, but that of the
block it returns; if it is an `srealloc` that succeeds, the block returned is large enough and starts
with all the old contents; if it is one that fails, nothing changes at all. -/
structure KeepsContents (w : World) (op : Op) (w' : World) (r : ℕ) : Prop where
  frame : op.isCall → ∀ p ∈ w.live, p ≠ r → ∀ x, Payload w.st p x → w'.st.mem x = w.st.mem x
  moved : ∀ ok oldp size, op = .srealloc ok oldp size → r ≠ 0 → size ≤ payloadLen w'.st r ∧
    (oldp ≠ 0 → ∀ i < payloadLen w.st oldp, w'.st.mem (r + i) = w.st.mem (oldp + i))
  failed : ∀ ok oldp size, op = .srealloc ok oldp size → r = 0 → w'.st = w.st

section Run

variable {brk₀ : ℕ} {w w' : World} {l l' : List ℕ} {op : Op} {r : ℕ}

theorem Live.payloadsApart (h : Live w.st l w.live) (hl : Layout brk₀ w.st l) :
    PayloadsApart w.st l w.live where
  nodup := h.nodup
  disjoint := by
    rintro p hp q hq hpq x ⟨hxp, hxq⟩
    obtain ⟨a, ha, rfl⟩ := h.block p hp
    obtain ⟨b, hb, rfl⟩ := h.block q hq
    rw [hl.payload_iff ha] at hxp
    rw [hl.payload_iff hb] at hxq
    exact hpq (by rw [hl.payload_unique ha hb hxp hxq])
  headers := fun p hp x hx => by
    obtain ⟨a, ha, rfl⟩ := h.block p hp
    rw [hl.payload_iff ha] at hx
    exact hl.offHeaders ha hx

/-- An allocation that succeeds is large enough, and one that fails changes nothing. -/
theorem AllocTo.result {s s' : State} {size : ℕ} (h : AllocTo s l size s' r l')
    (hl' : Layout brk₀ s' l') : (r ≠ 0 → size ≤ payloadLen s' r) ∧ (r = 0 → s' = s) := by
  cases h with
  | null => exact ⟨fun h => absurd rfl h, fun _ => rfl⟩
  | taken ht =>
    refine ⟨fun _ => ?_, fun h => absurd h (by unfold sizeofMetadata; omega)⟩
    rw [payloadLen, hl'.headerOf_add ht.mem]
    exact ht.fits

theorem Effect.srealloc {s s' : State} {ok : Bool} {oldp size : ℕ}
    (h : Effect brk₀ s l (.srealloc ok oldp size) s' r l') (hl : Layout brk₀ s l)
    (hl' : Layout brk₀ s' l') :
    (r ≠ 0 → size ≤ payloadLen s' r ∧
      (oldp ≠ 0 → ∀ i < payloadLen s oldp, s'.mem (r + i) = s.mem (oldp + i))) ∧
      (r = 0 → s' = s) := by
  cases h with
  | sreallocNull h =>
    obtain ⟨h₁, h₂⟩ := h.result hl'
    exact ⟨fun hr => ⟨h₁ hr, fun h₀ => absurd rfl h₀⟩, h₂⟩
  | sreallocFails => exact ⟨fun hr => absurd rfl hr, fun _ => rfl⟩
  | sreallocKeeps ha hs =>
    rw [payloadLen, hl.headerOf_add ha]
    exact ⟨fun _ => ⟨hs, fun _ _ _ => rfl⟩, fun _ => rfl⟩
  | @sreallocMoves ok a b size s₁ l₁ hb hs hl₁ h hc =>
    have hfits := h.fits
    refine ⟨fun _ => ⟨?_, fun _ i hi => ?_⟩, fun hr => absurd hr (by unfold sizeofMetadata; omega)⟩
    · rw [payloadLen, hl'.headerOf_add h.mem, free, hl₁.headerOf_add (h.sub hb),
        hl₁.hdr_mark (h.sub hb) true h.mem, if_neg (h.ne_of_lt hb hs)]
      exact hfits
    · rw [payloadLen, hl.headerOf_add hb] at hi
      have hx : InPayload s₁.mem a (a + sizeofMetadata + i) := by
        unfold InPayload
        omega
      rw [hl₁.free_frame (h.sub hb) (hl₁.offHeaders h.mem hx)]
      exact hc i hi

theorem Effect.keepsContents (h : Effect brk₀ w.st l op w'.st r l') (hl : Layout brk₀ w.st l)
    (hl' : Layout brk₀ w'.st l') (hv : Live w.st l w.live) : KeepsContents w op w' r where
  frame := fun hop p hp hpr x hx => by
    obtain ⟨b, hb, rfl⟩ := hv.block p hp
    exact h.frame hl hl' hop hb hpr ((hl.payload_iff hb).mp hx)
  moved := by
    rintro ok oldp size rfl
    exact (h.srealloc hl hl').1
  failed := by
    rintro ok oldp size rfl
    exact (h.srealloc hl hl').2

/-- The invariant of the runs in which the client uses only what it holds. -/
def Inv (brk₀ : ℕ) (w : World) : Prop := ∃ l, Layout brk₀ w.st l ∧ Live w.st l w.live

theorem inv_start {m : Mem} (h : 0 < brk₀) (h' : brk₀ < 2 ^ 64) : Inv brk₀ (start m brk₀) :=
  ⟨[], layout_start h h', .nil, by simp [start], by simp⟩

theorem Inv.step (h : Inv brk₀ w) (hs : Step w op w') : Inv brk₀ w' := by
  obtain ⟨l, hl, hv⟩ := h
  obtain ⟨hop, r, hc⟩ := hs
  obtain ⟨l', hl', he⟩ := hl.calls hv.block hop hc
  refine ⟨l', hl', ?_⟩
  rw [hc.2.2]
  exact he.keeps_live hl hv hop

/-- **The contents of memory in every run**: the payloads the client holds do not overlap each other
nor a header of the list, and every call the client may make returns and keeps the contents. -/
theorem memory_contents {m : Mem} (h : 0 < brk₀) (h' : brk₀ < 2 ^ 64) {ops : List Op}
    (hr : Run Step (start m brk₀) ops w) :
    ∃ l, Seg (fun a => (hdr w.st.mem a).next) w.st.head l 0 ∧ PayloadsApart w.st l w.live ∧
      ∀ op, Admissible w.live w.st op →
        (∃ w' r, Calls w op w' r) ∧ ∀ w' r, Calls w op w' r → KeepsContents w op w' r := by
  obtain ⟨l, hl, hv⟩ := hr.invariant (inv_start h h') fun _ _ _ hi hs => hi.step hs
  refine ⟨l, hl.blocks.linked, hv.payloadsApart hl, fun op hop => ⟨?_, fun w' r hc => ?_⟩⟩
  · obtain ⟨s', r, -, hret, -⟩ := hl.effect hv.block hop
    exact ⟨⟨s', track r w.returned, holds w.live r op⟩, r, hret, rfl, rfl⟩
  · obtain ⟨l', hl', he⟩ := hl.calls hv.block hop hc
    exact he.keepsContents hl hl' hv

theorem memory_contents_two_blocks :
    ∃ w, Run Step (start (fun _ => 0) 4096) (List.replicate 2 (.smalloc true 1)) w ∧
      ∃ l, Seg (fun a => (hdr w.st.mem a).next) w.st.head l 0 ∧ PayloadsApart w.st l w.live ∧
        ∀ op, Admissible w.live w.st op →
          (∃ w' r, Calls w op w' r) ∧ ∀ w' r, Calls w op w' r → KeepsContents w op w' r := by
  obtain ⟨w, -, hr, -⟩ := exists_run_smallocs (fun _ => 0) 4096 (by norm_num) Step.smalloc 2
    (by norm_num)
  exact ⟨w, hr, memory_contents (by norm_num) (by norm_num) hr⟩

end Run

end OsHomework.Malloc2
