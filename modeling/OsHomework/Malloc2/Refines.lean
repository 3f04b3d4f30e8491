import OsHomework.Lib.ByteHeap
import OsHomework.Malloc2.Contents
import OsHomework.Malloc2.FirstFit

/-!
# `malloc_2` is an allocator

The client of `malloc_2` sees a heap: it cannot tell the list of blocks from arrays that are nowhere.

* `heapOf`: the arrays that the client holds, read from the memory;
* `Asks`: which event of the heap a call with its result is;
* `Effect.kept`: the other blocks keep their sizes and their bytes; `scalloc_zero`: the fill;
* `Answers.refines`: one call is one step of the heap; **`refines_heap`**: every run is a run of the heap.
-/

set_option autoImplicit false

namespace OsHomework.Malloc2

/-- The heap of the client. -/
def heapOf (w : World) : ByteHeap := ByteHeap.image w.st.mem (payloadLen w.st) w.live

/-- The client makes the call, and this is what it gets. -/
def Answers (w : World) (c : Op × ℕ) (w' : World) : Prop := Admissible w.live w.st c.1 ∧ Calls w c.1 w' c.2

/-- The event of the heap. `scalloc` asks for the product as it is computed. -/
inductive Asks : Op × ℕ → ByteHeap.Event → Prop
  | smalloc (ok : Bool) (size r : ℕ) : Asks (.smalloc ok size, r) (.alloc size r)
  | scalloc (ok : Bool) (num size r : ℕ) : Asks (.scalloc ok num size, r) (.calloc (num * size % 2 ^ 64) r)
  | sfree (p r : ℕ) : Asks (.sfree p, r) (.free p)
  | srealloc (ok : Bool) (oldp size r : ℕ) : Asks (.srealloc ok oldp size, r) (.realloc oldp size r)
  | write (p i r : ℕ) (v : UInt8) : Asks (.write (p + i) v, r) (.write p i v)

section Step

variable {brk₀ : ℕ} {s s' : State} {l l' live : List ℕ} {op : Op} {r : ℕ} {w w' : World}

/-- **The blocks that are not returned keep their sizes and their bytes.** -/
theorem Effect.kept (h : Effect brk₀ s l op s' r l') (hl : Layout brk₀ s l) (hl' : Layout brk₀ s' l')
    (hop : op.isCall) (hlive : ∀ p ∈ live, ∃ a ∈ l, p = a + sizeofMetadata) (hr : ∀ p ∈ live, p ≠ r) :
    ByteHeap.Keeps s.mem s'.mem (payloadLen s) (payloadLen s') live := by
  intro p hp
  obtain ⟨a, ha, rfl⟩ := hlive p hp
  simp only [payloadLen, hl'.headerOf_add (h.sub ha)]
  refine ⟨h.sizes hl ha, fun i hi => h.frame hl hl' hop ha (hr _ hp) ?_⟩
  unfold InPayload
  omega

theorem scalloc_zero {ok : Bool} {n num size : ℕ} (h : scalloc ok n s num size = .ret (s', r)) (hr : r ≠ 0) :
    ∀ i < num * size % 2 ^ 64, s'.mem (r + i) = 0 := by
  rw [scalloc] at h
  split_ifs at h
  · cases h
    exact absurd rfl hr
  · obtain ⟨⟨t, addr⟩, -, h⟩ := Outcome.bind_eq_ret.mp h
    by_cases hnull : addr = 0
    all_goals simp only [hnull, if_true, if_false] at h
    · cases h
      exact absurd rfl hr
    · cases h
      intro i hi
      exact if_pos ⟨Nat.le_add_right _ i, Nat.add_lt_add_left hi _⟩

theorem Effect.smalloc_alloc {ok : Bool} {size : ℕ} (h : Effect brk₀ s l (.smalloc ok size) s' r l') :
    AllocTo s l size s' r l' := by
  cases h
  assumption

theorem Effect.scalloc_alloc {ok : Bool} {num size : ℕ} (h : Effect brk₀ s l (.scalloc ok num size) s' r l') :
    AllocTo s l (num * size % 2 ^ 64) s' r l' := by
  cases h
  assumption

theorem Effect.sfree_eq {p : ℕ} (h : Effect brk₀ s l (.sfree p) s' r l') : r = 0 := by
  cases h
  rfl

theorem Effect.write_eq {x : ℕ} {v : UInt8} (h : Effect brk₀ s l (.write x v) s' r l') :
    r = 0 ∧ s' = { s with mem := Function.update s.mem x v } ∧ l' = l := by
  cases h
  exact ⟨rfl, rfl, rfl⟩

/-- `srealloc` never returns a smaller block. -/
theorem Effect.srealloc_grows {ok : Bool} {oldp size : ℕ} (h : Effect brk₀ s l (.srealloc ok oldp size) s' r l')
    (hl : Layout brk₀ s l) (hl' : Layout brk₀ s' l') (hr : r ≠ 0) (hold : oldp ≠ 0) :
    payloadLen s oldp ≤ payloadLen s' r := by
  have hn := ((h.srealloc hl hl').1 hr).1
  cases h with
  | sreallocNull => exact absurd rfl hold
  | sreallocFails => exact absurd rfl hr
  | sreallocKeeps => exact le_rfl
  | @sreallocMoves ok a b size _ _ hb hs _ _ _ =>
    refine le_trans ?_ hn
    rw [payloadLen, hl.headerOf_add hb]
    exact hs.le

/-- **An allocation returns a block that is large enough**, or it fails and nothing changes. -/
theorem AllocTo.heap {size : ℕ} (h : AllocTo w.st l size w'.st r l') (hl' : Layout brk₀ w'.st l')
    (hlive : w'.live = track r w.live) (hv' : Live w'.st l' w'.live) :
    r = 0 ∧ heapOf w' = heapOf w ∨ r ≠ 0 ∧ r ∉ w.live ∧ size ≤ payloadLen w'.st r ∧ w'.live = r :: w.live := by
  obtain ⟨hfits, hsame⟩ := h.result hl'
  by_cases hr : r = 0
  · refine .inl ⟨hr, ?_⟩
    rw [heapOf, heapOf, hsame hr, hlive, track, if_pos hr]
  · rw [track, if_neg hr] at hlive
    exact .inr ⟨hr, (List.nodup_cons.mp (hlive ▸ hv'.nodup)).1, hfits hr, hlive⟩

/-- **A reallocation moves the array**, which keeps its bytes, or it fails and nothing changes. -/
theorem Effect.heap_srealloc {ok : Bool} {oldp size : ℕ} (h : Effect brk₀ w.st l (.srealloc ok oldp size) w'.st r l')
    (hl : Layout brk₀ w.st l) (hl' : Layout brk₀ w'.st l') (hv : Live w.st l w.live) (hv' : Live w'.st l' w'.live)
    (hold : oldp = 0 ∨ oldp ∈ w.live) (hlive : w'.live = if r = 0 then w.live else r :: w.live.erase oldp) :
    ByteHeap.Step (heapOf w) (.realloc oldp size r) (heapOf w') := by
  obtain ⟨hmoved, hfailed⟩ := h.srealloc hl hl'
  by_cases hr : r = 0
  · rw [if_pos hr] at hlive
    rw [heapOf, heapOf, hfailed hr, hlive, hr]
    exact .reallocFails oldp size
  · rw [if_neg hr] at hlive
    obtain ⟨hn, hcopy⟩ := hmoved hr
    have hnew : r ∉ w.live.erase oldp := (List.nodup_cons.mp (hlive ▸ hv'.nodup)).1
    have hkept := h.kept hl hl' trivial (fun q hq => hv.block q (List.mem_of_mem_erase hq))
      fun q hq (hqr : q = r) => hnew (hqr ▸ hq)
    rw [heapOf, heapOf, hlive]
    by_cases hnull : oldp = 0
    · subst hnull
      rw [List.erase_of_not_mem hv.ne_zero] at hnew hkept ⊢
      exact .of_reallocNull hr hnew hn hkept
    · exact .of_realloc hr hv.nodup (hold.resolve_left hnull) hnew hn (h.srealloc_grows hl hl' hr hnull) (hcopy hnull)
        hkept

/-- **A write changes one array**: the payloads do not overlap. -/
theorem Effect.heap_write {p i : ℕ} {v : UInt8} (h : Effect brk₀ w.st l (.write (p + i) v) w'.st r l')
    (hl : Layout brk₀ w.st l) (hv : Live w.st l w.live) (hp : p ∈ w.live) (hi : i < payloadLen w.st p)
    (hlive : w'.live = track r w.live) : ByteHeap.Step (heapOf w) (.write p i v) (heapOf w') := by
  obtain ⟨hr, hst, -⟩ := h.write_eq
  have hlen : ∀ q ∈ w.live, payloadLen w'.st q = payloadLen w.st q := by
    intro q hq
    obtain ⟨b, hb, rfl⟩ := hv.block q hq
    rw [payloadLen, payloadLen, hl.headerOf_add hb, h.sizes hl hb]
  have hapart : ∀ q ∈ w.live, q ≠ p → ∀ j < payloadLen w.st q, q + j ≠ p + i := fun q hq hne j hj heq =>
    (hv.payloadsApart hl).disjoint q hq p hp hne (q + j) ⟨⟨by omega, by omega⟩, ⟨by omega, by omega⟩⟩
  rw [track, if_pos hr] at hlive
  rw [heapOf, heapOf, hlive, hst]
  exact .of_write hp hi (hst ▸ hlen) hapart

/-- **One call is one step of the heap.** -/
theorem Answers.refines {c : Op × ℕ} (h : Inv brk₀ w) (hs : Answers w c w') :
    ∃ e, Asks c e ∧ ByteHeap.Step (heapOf w) e (heapOf w') := by
  obtain ⟨l, hl, hv⟩ := h
  obtain ⟨op, r⟩ := c
  obtain ⟨hop, hc⟩ := hs
  obtain ⟨l', hl', he⟩ := hl.calls hv.block hop hc
  obtain ⟨⟨N, hN⟩, -, hlive⟩ := hc
  have hv' : Live w'.st l' w'.live := hlive ▸ he.keeps_live hl hv hop
  have hkept : op.isCall → r ∉ w.live →
      ByteHeap.Keeps w.st.mem w'.st.mem (payloadLen w.st) (payloadLen w'.st) w.live := fun hcall hnew =>
    he.kept hl hl' hcall hv.block fun p hp (hpr : p = r) => hnew (hpr ▸ hp)
  cases op with
  | smalloc ok size =>
    refine ⟨_, .smalloc ok size r, ?_⟩
    rcases he.smalloc_alloc.heap hl' hlive hv' with ⟨rfl, heq⟩ | ⟨hr, hnew, hn, hlive⟩
    · rw [heq]
      exact .allocFails size
    · rw [heapOf, heapOf, hlive]
      exact .of_alloc hr hnew hn (hkept trivial hnew)
  | scalloc ok num size =>
    refine ⟨_, .scalloc ok num size r, ?_⟩
    rcases he.scalloc_alloc.heap hl' hlive hv' with ⟨rfl, heq⟩ | ⟨hr, hnew, hn, hlive⟩
    · rw [heq]
      exact .callocFails _
    · rw [heapOf, heapOf, hlive]
      exact .of_calloc hr hnew hn (hkept trivial hnew) (scalloc_zero (hN N le_rfl) hr)
  | sfree p =>
    refine ⟨_, .sfree p r, ?_⟩
    have hr : ∀ q ∈ w.live.erase p, q ≠ r := by
      rintro q hq rfl
      exact hv.ne_zero (he.sfree_eq ▸ List.mem_of_mem_erase hq)
    rw [heapOf, heapOf, hlive]
    exact .of_free hv.nodup hop (he.kept hl hl' trivial (fun q hq => hv.block q (List.mem_of_mem_erase hq)) hr)
  | srealloc ok oldp size => exact ⟨_, .srealloc ok oldp size r, he.heap_srealloc hl hl' hv hv' hop hlive⟩
  | write x v =>
    obtain ⟨p, hp, hx, hlt⟩ := hop
    obtain ⟨i, rfl⟩ := Nat.exists_eq_add_of_le hx
    exact ⟨_, .write p i r v, he.heap_write hl hv hp (Nat.lt_of_add_lt_add_left hlt) hlive⟩

end Step

theorem exists_answers {w w' : World} {ops : List Op} (h : Run Step w ops w') :
    ∃ cs : List (Op × ℕ), Run Answers w cs w' ∧ List.Forall₂ (fun op c => c.1 = op) ops cs :=
  (h.simulates (I := fun _ => True) (f := id) trivial fun _ op _ _ ⟨hop, r, hc⟩ =>
    ⟨trivial, (op, r), rfl, hop, hc⟩).2

/-- The call changes the block of length `n` at `p`. -/
def Touches (p n : ℕ) : Op → Prop
  | .sfree q | .srealloc _ q _ => q = p
  | .write x _ => p ≤ x ∧ x < p + n
  | _ => False

theorem Asks.touches {c : Op × ℕ} {e : ByteHeap.Event} {p n : ℕ} (h : Asks c e) (he : e.Touches p n) :
    Touches p n c.1 := by
  cases h with
  | smalloc | scalloc => exact he
  | sfree | srealloc => exact he
  | write q i =>
    obtain ⟨rfl, hi⟩ := he
    exact ⟨Nat.le_add_right q i, Nat.add_lt_add_left hi q⟩

theorem Inv.refines {brk₀ : ℕ} {w w' : World} {cs : List (Op × ℕ)} (h : Inv brk₀ w) (hr : Run Answers w cs w') :
    ∃ es, Run ByteHeap.Step (heapOf w) es (heapOf w') ∧ List.Forall₂ Asks cs es :=
  (hr.simulates h fun _ c _ hi hs => ⟨hi.step ⟨hs.1, c.2, hs.2⟩, hs.refines hi⟩).2

/-- **Every run of `malloc_2` is a run of the heap**: each call, with the result it had, is the event of the heap
that it asks for. -/
theorem refines_heap {m : Mem} {brk₀ : ℕ} (h : 0 < brk₀) (h' : brk₀ < 2 ^ 64) {cs : List (Op × ℕ)} {w : World}
    (hr : Run Answers (start m brk₀) cs w) :
    ∃ es, Run ByteHeap.Step ByteHeap.empty es (heapOf w) ∧ List.Forall₂ Asks cs es :=
  (inv_start h h').refines hr

/-- **A block stays as it is** until a call touches it: in every run the client finds what it has written there. -/
theorem block_stays {m : Mem} {brk₀ : ℕ} (h : 0 < brk₀) (h' : brk₀ < 2 ^ 64) {cs cs' : List (Op × ℕ)} {w w' : World}
    (hr : Run Answers (start m brk₀) cs w) (hr' : Run Answers w cs' w') {p : ℕ} (hp : p ∈ w.live)
    (hno : ∀ c ∈ cs', ¬ Touches p (payloadLen w.st p) c.1) : p ∈ w'.live ∧ payloadLen w'.st p = payloadLen w.st p ∧
      ∀ i < payloadLen w.st p, w'.st.mem (p + i) = w.st.mem (p + i) := by
  have hstep : ∀ t c u, Inv brk₀ t → Answers t c u →
      Inv brk₀ u ∧ ∃ e, Asks c e ∧ ByteHeap.Step (heapOf t) e (heapOf u) :=
    fun _ c _ hi hs => ⟨hi.step ⟨hs.1, c.2, hs.2⟩, hs.refines hi⟩
  have hw := (hr.simulates (inv_start h h') hstep).1
  have hkeeps : heapOf w' p = some (ByteHeap.bytes w.st.mem p (payloadLen w.st p)) := by
    refine ByteHeap.keeps_of_refines hr' hw hstep (ByteHeap.image_mem hp) fun c hc e he ht => ?_
    rw [ByteHeap.length_bytes] at ht
    exact hno c hc (he.touches ht)
  exact ByteHeap.image_eq_bytes hkeeps

/-- The calls `cs`, which must be admissible and give these results. -/
def answersWith (fuel : ℕ) : World → List (Op × ℕ) → Option World :=
  exec fun w c => (callWith fuel w c.1).bind fun u =>
    if Admissible w.live w.st c.1 ∧ u.2 = c.2 then some u.1 else none

theorem run_of_answersWith {fuel : ℕ} {w w' : World} {cs : List (Op × ℕ)} (h : answersWith fuel w cs = some w') :
    Run Answers w cs w' := by
  refine (Run.of_exec h).mono fun t c u hu => ?_
  obtain ⟨⟨u', r⟩, hc, hr⟩ := Option.bind_eq_some_iff.mp hu
  split_ifs at hr with hop
  obtain rfl := Option.some.inj hr
  obtain ⟨hadm, rfl⟩ := hop
  exact ⟨hadm, calls_of_callWith hc⟩

/-- Two blocks, a write, a release, and a block that moves to where the released one was. -/
theorem refines_heap_moved : ∃ w es, Run Answers (start (fun _ => 0) 4096)
      [(.smalloc true 100, 4128), (.smalloc true 50, 4260), (.write 4261 7, 0), (.sfree 4128, 0),
        (.srealloc true 4260 80, 4128)] w ∧ Run ByteHeap.Step ByteHeap.empty es (heapOf w) ∧
    List.Forall₂ Asks [(.smalloc true 100, 4128), (.smalloc true 50, 4260), (.write 4261 7, 0), (.sfree 4128, 0),
      (.srealloc true 4260 80, 4128)] es := by
  obtain ⟨w, hw⟩ := Option.isSome_iff_exists.mp (show (answersWith 3 (start (fun _ => 0) 4096)
    [(.smalloc true 100, 4128), (.smalloc true 50, 4260), (.write 4261 7, 0), (.sfree 4128, 0),
      (.srealloc true 4260 80, 4128)]).isSome = true by decide +kernel)
  have hrun := run_of_answersWith hw
  obtain ⟨es, hes, hasks⟩ := refines_heap (by norm_num) (by norm_num) hrun
  exact ⟨w, es, hrun, hes, hasks⟩

end OsHomework.Malloc2
