import OsHomework.Lib.Run
import OsHomework.Malloc2.Layout

/-!
# `malloc_2`: runs

A client allocates, releases, reallocates, and writes into payloads.

* `Op`, `call`, `Admissible ptrs`: the client passes and writes through the pointers `ptrs` only;
* `AllocTo`, **`Effect`**: all that a call can do to a list of blocks, and **`Layout.effect`**: an
  admissible call returns, keeps the layout and does one of these things;
* `World`: the allocator, the pointers that were returned and those the client still holds. In a
  `LooseStep` the client may use all of the former, in a `Step` only the latter.
-/

set_option autoImplicit false

namespace OsHomework.Malloc2

/-! ## Calls -/

/-- What the client does; `ok` says whether `sbrk` would succeed. -/
inductive Op where
  | smalloc (ok : Bool) (size : ℕ)
  | scalloc (ok : Bool) (num size : ℕ)
  | sfree (p : ℕ)
  | srealloc (ok : Bool) (oldp size : ℕ)
  | write (x : ℕ) (v : UInt8)
  deriving DecidableEq

/-- One action of the client: the state, and the pointer returned if there is one. -/
def call (fuel : ℕ) (s : State) : Op → Outcome (State × ℕ)
  | .smalloc ok size => smalloc ok fuel s size
  | .scalloc ok num size => scalloc ok fuel s num size
  | .sfree p => .ret (sfree s p, 0)
  | .srealloc ok oldp size => srealloc ok fuel s oldp size
  | .write x v => .ret ({ s with mem := Function.update s.mem x v }, 0)

/-- The length of the payload at `p`, from its header. -/
def payloadLen (s : State) (p : ℕ) : ℕ := (hdr s.mem (headerOf p)).size

/-- The client passes only the pointers `ptrs` and writes only into their payloads. `srealloc` may also
get `NULL`; `sfree` may not, for it looks for a header there. -/
def Admissible (ptrs : List ℕ) (s : State) : Op → Prop
  | .sfree p => p ∈ ptrs
  | .srealloc _ oldp _ => oldp = 0 ∨ oldp ∈ ptrs
  | .write x _ => ∃ p ∈ ptrs, p ≤ x ∧ x < p + payloadLen s p
  | _ => True

/-- What a request of `size` bytes can do to the list of blocks `l`: nothing, or take one. -/
inductive AllocTo (s : State) (l : List ℕ) (size : ℕ) : State → ℕ → List ℕ → Prop
  | null : AllocTo s l size s 0 l
  | taken {s' : State} {l' : List ℕ} {a : ℕ} (h : Taken s s' l l' size a) :
    AllocTo s l size s' (a + sizeofMetadata) l'

/-- **What a call can do** to the list of blocks `l`: the state, the pointer and the blocks after
it. -/
inductive Effect (brk₀ : ℕ) (s : State) (l : List ℕ) : Op → State → ℕ → List ℕ → Prop
  | smalloc {ok : Bool} {size r : ℕ} {s' : State} {l' : List ℕ} (h : AllocTo s l size s' r l') :
    Effect brk₀ s l (.smalloc ok size) s' r l'
  | scalloc {ok : Bool} {num size r : ℕ} {s' : State} {l' : List ℕ}
    (h : AllocTo s l (num * size % 2 ^ 64) s' r l') : Effect brk₀ s l (.scalloc ok num size) s' r l'
  | sfree {a : ℕ} (ha : a ∈ l) :
    Effect brk₀ s l (.sfree (a + sizeofMetadata)) (free s (a + sizeofMetadata)) 0 l
  | sreallocNull {ok : Bool} {size r : ℕ} {s' : State} {l' : List ℕ} (h : AllocTo s l size s' r l') :
    Effect brk₀ s l (.srealloc ok 0 size) s' r l'
  | sreallocFails {ok : Bool} {oldp size : ℕ} : Effect brk₀ s l (.srealloc ok oldp size) s 0 l
  | sreallocKeeps {ok : Bool} {a size : ℕ} (ha : a ∈ l) (hs : size ≤ (hdr s.mem a).size) :
    Effect brk₀ s l (.srealloc ok (a + sizeofMetadata) size) s (a + sizeofMetadata) l
  | sreallocMoves {ok : Bool} {a b size : ℕ} {s' : State} {l' : List ℕ} (hb : b ∈ l)
    (hs : (hdr s.mem b).size < size) (hl : Layout brk₀ s' l') (h : Taken s s' l l' size a)
    (hc : ∀ i < (hdr s.mem b).size, s'.mem (a + sizeofMetadata + i) = s.mem (b + sizeofMetadata + i)) :
    Effect brk₀ s l (.srealloc ok (b + sizeofMetadata) size) (free s' (b + sizeofMetadata))
      (a + sizeofMetadata) l'
  | write {a x : ℕ} {v : UInt8} (ha : a ∈ l) (hx : InPayload s.mem a x) :
    Effect brk₀ s l (.write x v) { s with mem := Function.update s.mem x v } 0 l

section Effect

variable {brk₀ : ℕ} {s : State} {l : List ℕ}

theorem Taken.ne_of_lt {s' : State} {l' : List ℕ} {size a b : ℕ} (h : Taken s s' l l' size a)
    (hb : b ∈ l) (hs : (hdr s.mem b).size < size) : a ≠ b := by
  rintro rfl
  have h₁ := h.fits
  have h₂ := h.sizes a hb
  omega

theorem Layout.smalloc (h : Layout brk₀ s l) (ok : Bool) (size : ℕ) :
    ∃ s' r l', Returns (fun n => smalloc ok n s size) (s', r) ∧ Layout brk₀ s' l' ∧
      AllocTo s l size s' r l' := by
  by_cases hs : size = 0 ∨ maxSizeToAllocate < size
  · simp only [Malloc2.smalloc, if_pos hs]
    exact ⟨s, 0, l, .const rfl, h, .null⟩
  · simp only [Malloc2.smalloc, if_neg hs]
    rcases h.malloc ok size with hr | ⟨s', l', a, hr, hl, ht⟩
    · exact ⟨s, 0, l, hr, h, .null⟩
    · exact ⟨s', _, l', hr, hl, .taken ht⟩

theorem Layout.scalloc (h : Layout brk₀ s l) (ok : Bool) (num size : ℕ) :
    ∃ s' r l', Returns (fun n => scalloc ok n s num size) (s', r) ∧ Layout brk₀ s' l' ∧
      AllocTo s l (num * size % 2 ^ 64) s' r l' := by
  by_cases hs : size = 0 ∨ num = 0 ∨ maxSizeToAllocate < num * size % 2 ^ 64
  · simp only [Malloc2.scalloc, if_pos hs]
    exact ⟨s, 0, l, .const rfl, h, .null⟩
  · simp only [Malloc2.scalloc, if_neg hs]
    rcases h.malloc ok (num * size % 2 ^ 64) with hr | ⟨s', l', a, hr, hl, ht⟩
    · exact ⟨s, 0, l, hr.bind (.const rfl), h, .null⟩
    · have hfill := ht.payload (m := s'.mem.fill (a + sizeofMetadata) (num * size % 2 ^ 64) 0) hl
        fun x hx => Mem.fill_out (by have := ht.fits; unfold InPayload at hx; omega)
      refine ⟨_, _, l', hr.bind (.const ?_), hfill.1, .taken hfill.2⟩
      simp [sizeofMetadata]

theorem Layout.free (h : Layout brk₀ s l) {a : ℕ} (ha : a ∈ l) :
    Layout brk₀ (free s (a + sizeofMetadata)) l := by
  rw [Malloc2.free, h.headerOf_add ha]
  exact h.mark ha true

/-- A reallocation keeps the block, or takes another one and releases it. -/
theorem Layout.srealloc (h : Layout brk₀ s l) (ok : Bool) {b : ℕ} (hb : b ∈ l) (size : ℕ) :
    ∃ s' r l', Returns (fun n => srealloc ok n s (b + sizeofMetadata) size) (s', r) ∧
      Layout brk₀ s' l' ∧ Effect brk₀ s l (.srealloc ok (b + sizeofMetadata) size) s' r l' := by
  by_cases hs : size = 0 ∨ maxSizeToAllocate < size
  · simp only [Malloc2.srealloc, if_pos hs]
    exact ⟨s, 0, l, .const rfl, h, .sreallocFails⟩
  · have hp : b + sizeofMetadata ≠ 0 := by unfold sizeofMetadata; omega
    simp only [Malloc2.srealloc, if_neg hs, if_neg hp, sreallocList, h.headerOf_add hb]
    by_cases hle : size ≤ (hdr s.mem b).size
    · simp only [if_pos hle]
      exact ⟨s, _, l, .const rfl, h, .sreallocKeeps hb hle⟩
    · simp only [if_neg hle]
      rcases h.malloc ok size with hr | ⟨s', l', a, hr, hl, ht⟩
      · exact ⟨s, 0, l, hr.bind (.const rfl), h, .sreallocFails⟩
      · have hfits := ht.fits
        have hab := ht.ne_of_lt hb (not_le.mp hle)
        obtain ⟨hl', ht'⟩ := ht.payload
          (m := s'.mem.copy (a + sizeofMetadata) (b + sizeofMetadata) (hdr s.mem b).size) hl
          fun x hx => Mem.copy_out (by unfold InPayload at hx; omega)
        refine ⟨_, _, l', hr.bind (.const ?_), hl'.free (ht.sub hb), .sreallocMoves hb (not_le.mp hle) hl' ht'
          ?_⟩
        · simp [sizeofMetadata]
        · intro i hi
          have hpay : InPayload s'.mem b (b + sizeofMetadata + i) := by
            rw [InPayload, ht.sizes b hb]
            omega
          exact (Mem.copy_in hi).trans (ht.frame _ (hl.offHeaders (ht.sub hb) hpay) fun hq =>
            hab (hl.payload_unique ht.mem (ht.sub hb) hq hpay))

/-- **An admissible call returns, keeps the layout and does what `Effect` says.** -/
theorem Layout.effect (h : Layout brk₀ s l) {ptrs : List ℕ}
    (hptrs : ∀ p ∈ ptrs, ∃ a ∈ l, p = a + sizeofMetadata) {op : Op} (hop : Admissible ptrs s op) :
    ∃ s' r l', Returns (fun n => call n s op) (s', r) ∧ Layout brk₀ s' l' ∧
      Effect brk₀ s l op s' r l' := by
  cases op with
  | smalloc ok size =>
    obtain ⟨s', r, l', hr, hl, ha⟩ := h.smalloc ok size
    exact ⟨s', r, l', hr, hl, .smalloc ha⟩
  | scalloc ok num size =>
    obtain ⟨s', r, l', hr, hl, ha⟩ := h.scalloc ok num size
    exact ⟨s', r, l', hr, hl, .scalloc ha⟩
  | sfree p =>
    obtain ⟨a, ha, rfl⟩ := hptrs p hop
    exact ⟨_, 0, l, .const rfl, h.free ha, .sfree ha⟩
  | srealloc ok oldp size =>
    rcases hop with rfl | hop
    · by_cases hs : size = 0 ∨ maxSizeToAllocate < size
      · simp only [call, Malloc2.srealloc, if_pos hs]
        exact ⟨s, 0, l, .const rfl, h, .sreallocFails⟩
      · simp only [call, Malloc2.srealloc, if_neg hs, if_pos]
        obtain ⟨s', r, l', hr, hl, ha⟩ := h.smalloc ok size
        exact ⟨s', r, l', hr, hl, .sreallocNull ha⟩
    · obtain ⟨a, ha, rfl⟩ := hptrs oldp hop
      exact h.srealloc ok ha size
  | write x v =>
    obtain ⟨p, hp, hx⟩ := hop
    obtain ⟨a, ha, rfl⟩ := hptrs p hp
    rw [payloadLen, h.headerOf_add ha] at hx
    refine ⟨_, 0, l, .const rfl, h.of_headers fun b hb => ?_, .write ha hx⟩
    refine hdr_eq_of_offHeaders hb fun y hy => Function.update_of_ne ?_ _ _
    rintro rfl
    exact hy (h.offHeaders ha hx)

theorem Effect.sub {op : Op} {s' : State} {r : ℕ} {l' : List ℕ} (h : Effect brk₀ s l op s' r l') :
    l ⊆ l' := by
  have halloc : ∀ {size}, AllocTo s l size s' r l' → l ⊆ l' := by
    rintro size (_ | ht)
    · exact List.Subset.refl l
    · exact ht.sub
  cases h with
  | smalloc h => exact halloc h
  | scalloc h => exact halloc h
  | sreallocNull h => exact halloc h
  | sreallocMoves _ _ _ h _ => exact h.sub
  | _ => exact List.Subset.refl l

theorem Effect.result {op : Op} {s' : State} {r : ℕ} {l' : List ℕ} (h : Effect brk₀ s l op s' r l') :
    r = 0 ∨ ∃ a ∈ l', r = a + sizeofMetadata := by
  have halloc : ∀ {size}, AllocTo s l size s' r l' → r = 0 ∨ ∃ a ∈ l', r = a + sizeofMetadata := by
    rintro size (_ | ht)
    · exact .inl rfl
    · exact .inr ⟨_, ht.mem, rfl⟩
  cases h with
  | smalloc h => exact halloc h
  | scalloc h => exact halloc h
  | sreallocNull h => exact halloc h
  | sreallocMoves _ _ _ h _ => exact .inr ⟨_, h.mem, rfl⟩
  | sreallocKeeps ha _ => exact .inr ⟨_, ha, rfl⟩
  | _ => exact .inl rfl

end Effect

/-! ## The client -/

/-- The allocator, the pointers that were returned, and those the client still holds. -/
structure World where
  st : State
  returned : List ℕ
  live : List ℕ

/-- A pointer that was returned, unless it is `NULL`. -/
def track (r : ℕ) (ptrs : List ℕ) : List ℕ := if r = 0 then ptrs else r :: ptrs

/-- What the client holds after a call that returned `r`. A failed `srealloc` leaves it what it had. -/
def holds (live : List ℕ) (r : ℕ) : Op → List ℕ
  | .sfree p => live.erase p
  | .srealloc _ oldp _ => if r = 0 then live else r :: live.erase oldp
  | _ => track r live

/-- The call `op` returns `r` and leads from `w` to `w'`. -/
def Calls (w : World) (op : Op) (w' : World) (r : ℕ) : Prop :=
  Returns (fun n => call n w.st op) (w'.st, r) ∧ w'.returned = track r w.returned ∧
    w'.live = holds w.live r op

/-- The client uses pointers that were returned at some time. -/
def LooseStep (w : World) (op : Op) (w' : World) : Prop :=
  Admissible w.returned w.st op ∧ ∃ r, Calls w op w' r

/-- The client uses only the pointers it holds. -/
def Step (w : World) (op : Op) (w' : World) : Prop :=
  Admissible w.live w.st op ∧ ∃ r, Calls w op w' r

theorem LooseStep.smalloc {w w' : World} {ok : Bool} {size r : ℕ}
    (h : Calls w (.smalloc ok size) w' r) : LooseStep w (.smalloc ok size) w' := ⟨trivial, r, h⟩

theorem Step.smalloc {w w' : World} {ok : Bool} {size r : ℕ}
    (h : Calls w (.smalloc ok size) w' r) : Step w (.smalloc ok size) w' := ⟨trivial, r, h⟩

/-- The program before its first allocation. -/
def start (m : Mem) (brk₀ : ℕ) : World := ⟨⟨m, 0, brk₀⟩, [], []⟩

theorem layout_start {m : Mem} {brk₀ : ℕ} (h : 0 < brk₀) (h' : brk₀ < 2 ^ 64) :
    Layout brk₀ (start m brk₀).st [] where
  pos := h
  top := h'
  blocks := ⟨rfl, .nil, .nil, .nil, by simp⟩
  first := fun hl => absurd rfl hl
  empty := fun _ => rfl

theorem Layout.calls {brk₀ : ℕ} {w w' : World} {l ptrs : List ℕ} (h : Layout brk₀ w.st l)
    (hptrs : ∀ p ∈ ptrs, ∃ a ∈ l, p = a + sizeofMetadata) {op : Op}
    (hop : Admissible ptrs w.st op) {r : ℕ} (hc : Calls w op w' r) :
    ∃ l', Layout brk₀ w'.st l' ∧ Effect brk₀ w.st l op w'.st r l' := by
  obtain ⟨s', r', l', hr, hl, he⟩ := h.effect hptrs hop
  obtain ⟨rfl, rfl⟩ : w'.st = s' ∧ r = r' := Prod.mk.inj (hc.1.unique hr)
  exact ⟨l', hl, he⟩

/-! ## Many blocks -/

/-- **A program that only allocates, one byte at a time**: every block is used, so every call extends
the list. -/
theorem exists_run_smallocs {step : World → Op → World → Prop} (m : Mem) (brk₀ : ℕ) (h : 0 < brk₀)
    (hstep : ∀ {w w' r}, Calls w (.smalloc true 1) w' r → step w (.smalloc true 1) w')
    (n : ℕ) (h' : brk₀ + 33 * n < 2 ^ 64) :
    ∃ w l, Run step (start m brk₀) (List.replicate n (.smalloc true 1)) w ∧ Layout brk₀ w.st l ∧
      l.length = n ∧ w.st.brk = brk₀ + 33 * n ∧ ∀ a ∈ l, (hdr w.st.mem a).isFree = false := by
  induction n with
  | zero => exact ⟨start m brk₀, [], .nil _, layout_start h (by omega), rfl, rfl, by simp⟩
  | succ n ih =>
    obtain ⟨w, l, hr, hl, hn, hbrk, hused⟩ := ih (by omega)
    have hf : ∀ a ∈ l, ¬ Fits w.st.mem 1 a := fun a ha => by simp [Fits, hused a ha]
    have hroom : w.st.brk + (1 + sizeofMetadata) < 2 ^ 64 := by
      rw [hbrk, sizeofMetadata]
      omega
    obtain ⟨s', hret, hbrk', hl', ht⟩ := hl.extend hroom hf
    refine ⟨⟨s', track (w.st.brk + sizeofMetadata) w.returned,
      holds w.live (w.st.brk + sizeofMetadata) (.smalloc true 1)⟩, l ++ [w.st.brk], ?_, hl', ?_, ?_, ?_⟩
    · rw [List.replicate_succ']
      exact .snoc hr (hstep ⟨hret, rfl, rfl⟩)
    · rw [List.length_append, hn, List.length_singleton]
    · rw [show w.st.brk = _ from hbrk, sizeofMetadata] at hbrk'
      exact hbrk'.trans (by ring)
    · intro a ha
      by_cases hnew : a = w.st.brk
      · rw [hnew]
        exact ht.used
      · have ha' : a ∈ l := (ht.old_or_new a ha).resolve_right hnew
        rw [← hused a ha']
        exact ht.marks a ha' hnew

/-! ## Runs, computed -/

theorem settles_findBlock {m : Mem} {size curr last : ℕ} : Settles fun n => findBlock m size n curr last := by
  intro n
  induction n generalizing curr last with
  | zero => exact fun h => absurd rfl h
  | succ n ih =>
    intro hne
    beta_reduce at hne ih ⊢
    conv_lhs => rw [findBlock]
    conv_rhs => rw [findBlock]
    rw [findBlock] at hne
    split_ifs at hne ⊢
    · rfl
    · rfl
    · exact ih hne

theorem settles_malloc {ok : Bool} {s : State} {size : ℕ} : Settles fun n => malloc ok n s size :=
  settles_findBlock.bind fun _ => .const _

theorem settles_call {s : State} {op : Op} : Settles fun n => call n s op := by
  have hsmalloc : ∀ {ok s size}, Settles fun n => smalloc ok n s size := fun {ok s size} => by
    unfold smalloc
    split_ifs
    · exact .const _
    · exact settles_malloc
  cases op with
  | smalloc ok size => exact hsmalloc
  | scalloc ok num size =>
    show Settles fun n => scalloc ok n s num size
    unfold scalloc
    dsimp only
    split_ifs
    · exact .const _
    · exact settles_malloc.bind fun _ => .const _
  | srealloc ok oldp size =>
    show Settles fun n => srealloc ok n s oldp size
    unfold srealloc sreallocList
    dsimp only
    split_ifs
    · exact .const _
    · exact hsmalloc
    · exact .const _
    · exact settles_malloc.bind fun _ => .const _
  | sfree p | write x v => exact .const _

/-- A call, with fuel for a short list. -/
def callWith (fuel : ℕ) (w : World) (op : Op) : Option (World × ℕ) :=
  match call fuel w.st op with
  | .ret (s, r) => some (⟨s, track r w.returned, holds w.live r op⟩, r)
  | _ => none

theorem calls_of_callWith {fuel r : ℕ} {w w' : World} {op : Op} (h : callWith fuel w op = some (w', r)) :
    Calls w op w' r := by
  unfold callWith at h
  split at h
  next s r' hr =>
    cases h
    exact ⟨settles_call.returns hr, rfl, rfl⟩
  next => cases h

instance (ptrs : List ℕ) (s : State) : (op : Op) → Decidable (Admissible ptrs s op)
  | .sfree p => inferInstanceAs (Decidable (p ∈ ptrs))
  | .srealloc _ oldp _ => inferInstanceAs (Decidable (oldp = 0 ∨ oldp ∈ ptrs))
  | .write x _ => inferInstanceAs (Decidable (∃ p ∈ ptrs, p ≤ x ∧ x < p + payloadLen s p))
  | .smalloc _ _ | .scalloc _ _ _ => inferInstanceAs (Decidable True)

/-- The calls `ops`, which must all pass a test. -/
def callsWith (test : World → Op → Bool) (fuel : ℕ) : World → List Op → Option World :=
  execWhen test fun w op => (callWith fuel w op).map Prod.fst

theorem run_of_callsWith {step : World → Op → World → Prop} {test : World → Op → Bool} {fuel : ℕ} {w w' : World}
    {ops : List Op} (hstep : ∀ {w op w' r}, test w op = true → Calls w op w' r → step w op w')
    (h : callsWith test fuel w ops = some w') : Run step w ops w' := by
  refine (Run.of_execWhen h).mono fun t op u ⟨hs, hop⟩ => ?_
  obtain ⟨⟨u', r⟩, hc, rfl⟩ := Option.map_eq_some_iff.mp hs
  exact hstep hop (calls_of_callWith hc)

end OsHomework.Malloc2
