import OsHomework.Lib.ByteHeap

/-!
# What a client of an allocator can tell

A client that keeps to the rules of C has its pointers in variables. It writes within the size that it has asked for,
and it reads only bytes that have a value: those it has written, and those of an array that came with zeros.

* `Deed`: a statement of the client, and whether its call succeeds; `Known`, `Deed.after`, `known`: the values of the
  bytes. No address occurs in them;
* `Says`: the event of the heap that a deed is, given where the variables point;
* `Sees`: the heap holds what the client knows; **`Sees.step`**: and goes on to do so;
* `Allocator`: an implementation of the heap; **`Allocator.reads_back`**: its client reads the values that it knows;
  **`Allocator.agree`**: so it cannot tell two implementations apart.
-/

set_option autoImplicit false

namespace OsHomework.ByteHeap

/-- The bytes of the arrays that the variables point to, as far as they have a value. -/
abbrev Known := ℕ → List (Option UInt8)

/-- Where the variables point. -/
abbrev Env := ℕ → ℕ

/-- A statement of the client, which names its variables; `ok` says that the call does not return `NULL`. -/
inductive Deed where
  | alloc (x n : ℕ) (ok : Bool)
  | calloc (x n : ℕ) (ok : Bool)
  | free (x : ℕ)
  | realloc (x n : ℕ) (ok : Bool)
  | write (x i : ℕ) (v : UInt8)

/-- The first `n` bytes, and bytes without a value where there are not so many. -/
def resize (k : List (Option UInt8)) (n : ℕ) : List (Option UInt8) := k.take n ++ List.replicate (n - k.length) none

/-- What the client knows afterwards. A variable that is freed, or whose allocation fails, is `NULL`; a reallocation
that fails leaves it alone. -/
def Deed.after (K : Known) : Deed → Known
  | .alloc x n true => Function.update K x (List.replicate n none)
  | .calloc x n true => Function.update K x (List.replicate n (some 0))
  | .alloc x _ false | .calloc x _ false | .free x => Function.update K x []
  | .realloc x n true => Function.update K x (resize (K x) n)
  | .realloc _ _ false => K
  | .write x i v => Function.update K x ((K x).set i (some v))

/-- What the client knows after the deeds `ds`. -/
def known (ds : List Deed) : Known := ds.foldl Deed.after fun _ => []

/-- A write is within the size that was asked for. -/
def Deed.InRange (K : Known) : Deed → Prop
  | .write x i _ => i < (K x).length
  | _ => True

/-- All writes are. -/
def Lawful (K : Known) : List Deed → Prop
  | [] => True
  | d :: ds => d.InRange K ∧ Lawful (d.after K) ds

theorem lawful_append {K : Known} {ds : List Deed} {d : Deed} :
    Lawful K (ds ++ [d]) ↔ Lawful K ds ∧ d.InRange (ds.foldl Deed.after K) := by
  induction ds generalizing K with
  | nil => simp [Lawful]
  | cons d' ds ih => simp only [List.cons_append, Lawful, List.foldl_cons, ih, and_assoc]

theorem known_append (ds : List Deed) (d : Deed) : known (ds ++ [d]) = d.after (known ds) := by
  simp [known]

/-! ## The deeds in the heap -/

/-- The event of the heap, with the pointer that the call returns, and where the variables point afterwards. -/
inductive Says (env : Env) : Deed → Event → Env → Prop
  | alloc {p : ℕ} (x n : ℕ) (hp : p ≠ 0) : Says env (.alloc x n true) (.alloc n p) (Function.update env x p)
  | allocFails (x n : ℕ) : Says env (.alloc x n false) (.alloc n 0) (Function.update env x 0)
  | calloc {p : ℕ} (x n : ℕ) (hp : p ≠ 0) : Says env (.calloc x n true) (.calloc n p) (Function.update env x p)
  | callocFails (x n : ℕ) : Says env (.calloc x n false) (.calloc n 0) (Function.update env x 0)
  | free (x : ℕ) : Says env (.free x) (.free (env x)) (Function.update env x 0)
  | realloc {q : ℕ} (x n : ℕ) (hq : q ≠ 0) :
    Says env (.realloc x n true) (.realloc (env x) n q) (Function.update env x q)
  | reallocFails (x n : ℕ) : Says env (.realloc x n false) (.realloc (env x) n 0) env
  | write (x i : ℕ) (v : UInt8) : Says env (.write x i v) (.write (env x) i v) env

/-- The array has the values that are known of it. -/
def Knows (k : List (Option UInt8)) (l : List UInt8) : Prop :=
  k.length ≤ l.length ∧ ∀ (i : ℕ) (v : UInt8), k[i]? = some (some v) → l[i]? = some v

section Knows

variable {k : List (Option UInt8)} {l l' : List UInt8} {n : ℕ}

theorem knows_new (h : n ≤ l.length) : Knows (List.replicate n none) l :=
  ⟨by simpa using h, fun i v hv => by simp [List.getElem?_replicate] at hv⟩

theorem knows_zero (h : n ≤ l.length) (hzero : l.take n = List.replicate n 0) :
    Knows (List.replicate n (some 0)) l := by
  refine ⟨by simpa using h, fun i v hv => ?_⟩
  rw [List.getElem?_replicate] at hv
  split_ifs at hv with hi
  obtain rfl : 0 = v := by simpa using hv
  rw [← List.getElem?_take_of_lt hi, hzero, List.getElem?_replicate, if_pos hi]

theorem Knows.resize (h : Knows k l) (hl : l <+: l') (hn : n ≤ l'.length) : Knows (resize k n) l' := by
  have hlen : (ByteHeap.resize k n).length = n := by
    simp only [ByteHeap.resize, List.length_append, List.length_take, List.length_replicate]
    omega
  refine ⟨hlen.trans_le hn, fun i v hv => ?_⟩
  rw [ByteHeap.resize, List.getElem?_append] at hv
  split_ifs at hv with hi
  · have hv' : k[i]? = some (some v) := by
      rwa [List.getElem?_take_of_lt (by rw [List.length_take] at hi; omega)] at hv
    have hsome := h.2 i v hv'
    obtain ⟨t, rfl⟩ := hl
    rw [List.getElem?_append_left (List.getElem?_eq_some_iff.mp hsome).1, hsome]
  · simp [List.getElem?_replicate] at hv

theorem Knows.set (h : Knows k l) (i : ℕ) (v : UInt8) : Knows (k.set i (some v)) (l.set i v) := by
  refine ⟨by simpa using h.1, fun j u hu => ?_⟩
  have hlen := h.1
  rw [List.getElem?_set] at hu ⊢
  split_ifs at hu ⊢ with hij hi hi'
  · simpa using hu
  · omega
  · exact h.2 j u hu

end Knows

/-- **The heap holds what the client knows.** Two variables never point to the same array. -/
structure Sees (env : Env) (K : Known) (H : ByteHeap) : Prop where
  null : H 0 = none
  unknown : ∀ x, env x = 0 → K x = []
  array : ∀ x, env x ≠ 0 → ∃ l, H (env x) = some l ∧ Knows (K x) l
  apart : ∀ x y, env x = env y → env x ≠ 0 → x = y

section Sees

variable {env env' : Env} {K : Known} {H H' : ByteHeap} {d : Deed} {e : Event} {x p : ℕ}

theorem sees_empty : Sees (fun _ => 0) (fun _ => []) empty :=
  ⟨rfl, fun _ _ => rfl, fun _ h => absurd rfl h, fun _ _ _ h => absurd rfl h⟩

/-- The variable becomes `NULL`, and its array is forgotten or freed. -/
theorem Sees.drop (h : Sees env K H) (x : ℕ) (hnull : H' 0 = none) (hkeep : ∀ p, p ≠ env x → H' p = H p) :
    Sees (Function.update env x 0) (Function.update K x []) H' := by
  have hne : ∀ y, Function.update env x 0 y ≠ 0 → y ≠ x := by
    rintro y hy rfl
    simp at hy
  refine ⟨hnull, fun y hy => ?_, fun y hy => ?_, fun y z hyz hy => ?_⟩
  · by_cases hyx : y = x
    · rw [hyx, Function.update_self]
    · rw [Function.update_of_ne hyx] at hy ⊢
      exact h.unknown y hy
  · have hyx := hne y hy
    rw [Function.update_of_ne hyx] at hy ⊢
    rw [Function.update_of_ne hyx, hkeep _ fun heq => hyx (h.apart y x heq hy)]
    exact h.array y hy
  · have hyx := hne y hy
    have hzx := hne z (hyz ▸ hy)
    rw [Function.update_of_ne hyx] at hyz hy
    rw [Function.update_of_ne hzx] at hyz
    exact h.apart y z hyz hy

/-- The variable points to a new array. -/
theorem Sees.fresh (h : Sees env K H) (x : ℕ) {k : List (Option UInt8)} {l : List UInt8} (hp : p ≠ 0)
    (hnew : H p = none) (hk : Knows k l) :
    Sees (Function.update env x p) (Function.update K x k) (Function.update H p (some l)) := by
  have hne : ∀ y, env y ≠ 0 → env y ≠ p := by
    rintro y hy rfl
    obtain ⟨l', hl', -⟩ := h.array y hy
    rw [hnew] at hl'
    cases hl'
  refine ⟨?_, fun y hy => ?_, fun y hy => ?_, fun y z hyz hy => ?_⟩
  · rw [Function.update_of_ne hp.symm, h.null]
  · by_cases hyx : y = x
    · rw [hyx, Function.update_self] at hy
      exact absurd hy hp
    · rw [Function.update_of_ne hyx] at hy ⊢
      exact h.unknown y hy
  · by_cases hyx : y = x
    · subst hyx
      simp only [Function.update_self]
      exact ⟨l, rfl, hk⟩
    · rw [Function.update_of_ne hyx] at hy ⊢
      rw [Function.update_of_ne hyx, Function.update_of_ne (hne y hy)]
      exact h.array y hy
  · by_cases hyx : y = x <;> by_cases hzx : z = x
    · rw [hyx, hzx]
    · subst hyx
      rw [Function.update_self, Function.update_of_ne hzx] at hyz
      exact absurd hyz.symm (hne z (hyz ▸ hp))
    · subst hzx
      rw [Function.update_self, Function.update_of_ne hyx] at hyz
      exact absurd hyz (hne y (hyz ▸ hp))
    · rw [Function.update_of_ne hyx] at hyz hy
      rw [Function.update_of_ne hzx] at hyz
      exact h.apart y z hyz hy

theorem Sees.write (h : Sees env K H) {l : List UInt8} (hl : H (env x) = some l) (i : ℕ) (v : UInt8) :
    Sees env (Function.update K x ((K x).set i (some v))) (Function.update H (env x) (some (l.set i v))) := by
  have hx : env x ≠ 0 := fun h0 => by
    rw [h0, h.null] at hl
    cases hl
  refine ⟨?_, fun y hy => ?_, fun y hy => ?_, h.apart⟩
  · rw [Function.update_of_ne hx.symm, h.null]
  · rw [Function.update_of_ne fun heq : y = x => hx (heq ▸ hy)]
    exact h.unknown y hy
  · by_cases hyx : y = x
    · subst hyx
      obtain ⟨l', hl', hk⟩ := h.array y hy
      obtain rfl := Option.some.inj (hl.symm.trans hl')
      simp only [Function.update_self]
      exact ⟨_, rfl, hk.set i v⟩
    · rw [Function.update_of_ne hyx, Function.update_of_ne fun heq => hyx (h.apart y x heq hy)]
      exact h.array y hy

/-- **One deed**: the heap goes on to hold what the client knows. -/
theorem Sees.step (h : Sees env K H) (hevent : Says env d e env') (hstep : Step H e H') :
    Sees env' (d.after K) H' := by
  cases hevent with
  | alloc x n hp =>
    cases hstep with
    | allocFails => exact absurd rfl hp
    | alloc _ hnew hn => exact h.fresh x hp hnew (knows_new hn)
  | calloc x n hp =>
    cases hstep with
    | callocFails => exact absurd rfl hp
    | calloc _ hnew hn hzero => exact h.fresh x hp hnew (knows_zero hn hzero)
  | allocFails x n =>
    cases hstep with
    | allocFails => exact h.drop x h.null fun _ _ => rfl
    | alloc hp => exact absurd rfl hp
  | callocFails x n =>
    cases hstep with
    | callocFails => exact h.drop x h.null fun _ _ => rfl
    | calloc hp => exact absurd rfl hp
  | free x =>
    generalize hp : env x = p at hstep
    cases hstep with
    | freeNull => exact h.drop x h.null fun _ _ => rfl
    | free hl =>
      subst hp
      refine h.drop x ?_ fun p hne => Function.update_of_ne hne _ _
      by_cases h0 : env x = 0
      · rw [h0, Function.update_self]
      · rw [Function.update_of_ne (Ne.symm h0), h.null]
  | @realloc q x n hq =>
    generalize hp : env x = p at hstep
    cases hstep with
    | reallocFails => exact absurd rfl hq
    | reallocNull _ hnew hn =>
      have hk : Knows (K x) [] := by
        rw [h.unknown x hp]
        exact ⟨le_rfl, fun i v hv => by simp at hv⟩
      exact h.fresh x hq hnew (hk.resize List.nil_prefix hn)
    | @realloc _ _ _ l l' _ hl hnew hpre hn =>
      subst hp
      have hx : env x ≠ 0 := fun h0 => by
        rw [h0, h.null] at hl
        cases hl
      obtain ⟨l₀, hl₀, hk⟩ := h.array x hx
      obtain rfl := Option.some.inj (hl.symm.trans hl₀)
      have hdrop : Sees (Function.update env x 0) (Function.update K x []) (Function.update H (env x) none) :=
        h.drop x (by rw [Function.update_of_ne (Ne.symm hx), h.null]) fun p hne => Function.update_of_ne hne _ _
      have hfree : Function.update H (env x) none q = none := by
        by_cases hqx : q = env x
        · rw [hqx, Function.update_self]
        · rw [Function.update_of_ne hqx, hnew hqx]
      have hfresh := hdrop.fresh x hq hfree (hk.resize hpre hn)
      rwa [Function.update_idem, Function.update_idem] at hfresh
  | reallocFails x n =>
    generalize env x = p at hstep
    cases hstep with
    | reallocFails => exact h
    | reallocNull hq => exact absurd rfl hq
    | realloc hq => exact absurd rfl hq
  | write x i v =>
    generalize hp : env x = p at hstep
    cases hstep with
    | write hl _ =>
      subst hp
      exact h.write hl i v

end Sees

/-! ## Implementations -/

/-- The byte that the event writes is one of an array. -/
def Event.Fits (H : ByteHeap) : Event → Prop
  | .write p i _ => ∃ l, H p = some l ∧ i < l.length
  | _ => True

/-- **An implementation of the heap**: a system whose calls `C` are steps of the heap that its states hold. -/
structure Allocator (S C : Type) where
  Step : S → C → S → Prop
  heap : S → ByteHeap
  /-- The event that the call is, with its result. -/
  Asks : C → Event → Prop
  Inv : S → Prop
  step_heap {s t : S} {c : C} {e : Event} : Inv s → Step s c t → Asks c e → e.Fits (heap s) →
    Inv t ∧ ByteHeap.Step (heap s) e (heap t)

namespace Allocator

variable {S C S' C' : Type} (A : Allocator S C) (A' : Allocator S' C')

/-- The client does something: it makes the call that the deed is. -/
def ClientStep (s : S × Env) (d : Deed) (t : S × Env) : Prop :=
  ∃ c e, Says s.2 d e t.2 ∧ A.Asks c e ∧ A.Step s.1 c t.1

variable {A A'} {s t : S} {s' t' : S'} {env env' : Env} {ds : List Deed} {x i : ℕ} {v : UInt8}

/-- What a deed writes is there, if it is in range. -/
theorem fits_of_inRange {K : Known} {H : ByteHeap} {d : Deed} {e : Event} (h : Sees env K H)
    (hevent : Says env d e env') (hd : d.InRange K) : e.Fits H := by
  cases hevent with
  | write x i v =>
    by_cases hx : env x = 0
    · rw [Deed.InRange, h.unknown x hx] at hd
      cases hd
    · obtain ⟨l, hl, hk⟩ := h.array x hx
      exact ⟨l, hl, hd.trans_le hk.1⟩
  | _ => trivial

theorem sees_of_run {p q : S × Env} (h : Run A.ClientStep p ds q) (hp : A.Inv p.1 ∧ Sees p.2 (fun _ => []) (A.heap p.1))
    (hds : Lawful (fun _ => []) ds) : A.Inv q.1 ∧ Sees q.2 (known ds) (A.heap q.1) := by
  induction h with
  | nil => exact hp
  | @snoc q r ds d _ hl ih =>
    obtain ⟨hds, hd⟩ := lawful_append.mp hds
    obtain ⟨hi, hsees⟩ := ih hds
    obtain ⟨c, e, hevent, hasks, hstep⟩ := hl
    obtain ⟨hi', hheap⟩ := A.step_heap hi hstep hasks (fits_of_inRange hsees hevent hd)
    rw [known_append]
    exact ⟨hi', hsees.step hevent hheap⟩

/-- **The client reads what it knows.** -/
theorem reads_back (h : Run A.ClientStep (s, fun _ => 0) ds (t, env)) (hs : A.Inv s) (hempty : A.heap s = empty)
    (hds : Lawful (fun _ => []) ds) (hv : (known ds x)[i]? = some (some v)) :
    ∃ l, A.heap t (env x) = some l ∧ l[i]? = some v := by
  have hsees := (sees_of_run h ⟨hs, hempty ▸ sees_empty⟩ hds).2
  have hx : env x ≠ 0 := fun h0 => by
    rw [hsees.unknown x h0] at hv
    cases hv
  obtain ⟨l, hl, hk⟩ := hsees.array x hx
  exact ⟨l, hl, hk.2 i v hv⟩

/-- **It cannot tell two implementations apart**: what it reads in one of them it reads in the other. -/
theorem agree (h : Run A.ClientStep (s, fun _ => 0) ds (t, env)) (hs : A.Inv s) (hempty : A.heap s = empty)
    (h' : Run A'.ClientStep (s', fun _ => 0) ds (t', env')) (hs' : A'.Inv s') (hempty' : A'.heap s' = empty)
    (hds : Lawful (fun _ => []) ds) (hv : (known ds x)[i]? = some (some v)) :
    ∃ l l', A.heap t (env x) = some l ∧ A'.heap t' (env' x) = some l' ∧ l[i]? = some v ∧ l'[i]? = some v := by
  obtain ⟨l, hl, hi⟩ := reads_back h hs hempty hds hv
  obtain ⟨l', hl', hi'⟩ := reads_back h' hs' hempty' hds hv
  exact ⟨l, l', hl, hl', hi, hi'⟩

end Allocator

/-- In the image of a memory the event of a write is determined by the address, as the blocks do not overlap. -/
theorem write_unique {m : Mem} {len : ℕ → ℕ} {live : List ℕ} {p q i j : ℕ} {v : UInt8}
    (hapart : ∀ p ∈ live, ∀ q ∈ live, p ≠ q → ∀ i < len p, ∀ j < len q, p + i ≠ q + j)
    (hp : (Event.write p i v).Fits (image m len live)) (hq : (Event.write q j v).Fits (image m len live))
    (h : p + i = q + j) : p = q ∧ i = j := by
  have hin : ∀ {p i}, (Event.write p i v).Fits (image m len live) → p ∈ live ∧ i < len p := by
    rintro p i ⟨l, hl, hi⟩
    by_cases hmem : p ∈ live
    · rw [image_mem hmem] at hl
      obtain rfl := Option.some.inj hl
      exact ⟨hmem, by rwa [length_bytes] at hi⟩
    · rw [image_not_mem hmem] at hl
      cases hl
  obtain ⟨hp, hi⟩ := hin hp
  obtain ⟨hq, hj⟩ := hin hq
  by_cases hpq : p = q
  · exact ⟨hpq, by omega⟩
  · exact absurd h (hapart p hp q hq hpq i hi j hj)

theorem Step.fits {H H' : ByteHeap} {e : Event} (h : Step H e H') : e.Fits H := by
  cases h with
  | write hp hi => exact ⟨_, hp, hi⟩
  | _ => trivial

/-- A step with one event of the call is one with every other event that it may be. -/
theorem Step.of_event {m : Mem} {len : ℕ → ℕ} {live : List ℕ} {H' : ByteHeap} {e e' : Event}
    (hapart : ∀ p ∈ live, ∀ q ∈ live, p ≠ q → ∀ i < len p, ∀ j < len q, p + i ≠ q + j)
    (h : Step (image m len live) e' H') (hfits : e.Fits (image m len live))
    (he : e' = e ∨ ∃ p i q j v, e = .write p i v ∧ e' = .write q j v ∧ p + i = q + j) :
    Step (image m len live) e H' := by
  rcases he with rfl | ⟨p, i, q, j, v, rfl, rfl, heq⟩
  · exact h
  · obtain ⟨rfl, rfl⟩ := write_unique hapart hfits h.fits heq
    exact h

theorem read_image {m : Mem} {len : ℕ → ℕ} {live : List ℕ} {p i : ℕ} {v : UInt8} {l : List UInt8}
    (hl : image m len live p = some l) (hi : l[i]? = some v) : m (p + i) = v := by
  by_cases hp : p ∈ live
  · rw [image_mem hp] at hl
    obtain rfl := Option.some.inj hl
    obtain ⟨hlt, hget⟩ := List.getElem?_eq_some_iff.mp hi
    simpa [bytes] using hget
  · rw [image_not_mem hp] at hl
    cases hl

end OsHomework.ByteHeap
