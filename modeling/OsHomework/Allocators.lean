import OsHomework.Lib.HeapClient
import OsHomework.Malloc2.Refines
import OsHomework.Malloc3.Refines

/-!
# The allocators are interchangeable

`malloc_2` walks a list, `malloc_3` cuts and merges the blocks of an arena: the pointers that they return have nothing
in common. A client that keeps to the rules of C reads the same from both.

* `Malloc2.allocator`, `Malloc3.allocator`: both implement the heap, in every state that their runs reach;
* **`clients_agree`**.
-/

set_option autoImplicit false

namespace OsHomework

open ByteHeap

namespace Malloc2

/-- The event is determined by the call, up to the block that a write is in. -/
theorem Asks.unique {c : Op × ℕ} {e e' : Event} (h : Asks c e) (h' : Asks c e') :
    e' = e ∨ ∃ p i q j v, e = .write p i v ∧ e' = .write q j v ∧ p + i = q + j := by
  cases h with
  | write p i r v =>
    generalize hx : p + i = x at h'
    cases h' with
    | write q j => exact .inr ⟨p, i, q, j, v, rfl, rfl, hx⟩
  | smalloc | scalloc | sfree | srealloc =>
    cases h'
    exact .inl rfl

theorem Inv.disjoint {brk₀ : ℕ} {w : World} (h : Inv brk₀ w) : ∀ p ∈ w.live, ∀ q ∈ w.live, p ≠ q →
    ∀ i < payloadLen w.st p, ∀ j < payloadLen w.st q, p + i ≠ q + j := by
  obtain ⟨l, hl, hv⟩ := h
  intro p hp q hq hpq i hi j hj heq
  exact (hv.payloadsApart hl).disjoint p hp q hq hpq (p + i) ⟨⟨by omega, by omega⟩, ⟨by omega, by omega⟩⟩

/-- `malloc_2` implements the heap. -/
def allocator (brk₀ : ℕ) : Allocator World (Op × ℕ) where
  Step := Answers
  heap := heapOf
  Asks := Asks
  Inv := Inv brk₀
  step_heap := by
    intro w w' c e hi hs hasks hfits
    obtain ⟨e', hasks', hstep⟩ := hs.refines hi
    exact ⟨hi.step ⟨hs.1, c.2, hs.2⟩, hstep.of_event hi.disjoint hfits (hasks.unique hasks')⟩

end Malloc2

namespace Malloc3

theorem Asks.unique {c : Ask × ℕ} {e e' : Event} (h : Asks c e) (h' : Asks c e') :
    e' = e ∨ ∃ p i q j v, e = .write p i v ∧ e' = .write q j v ∧ p + i = q + j := by
  cases h with
  | write p i r v =>
    generalize hx : p + i = x at h'
    cases h' with
    | write q j => exact .inr ⟨p, i, q, j, v, rfl, rfl, hx⟩
  | smalloc | scalloc | sfree | srealloc =>
    cases h'
    exact .inl rfl

theorem WInv.disjoint {base : ℕ} {w : World} (h : WInv base w) : ∀ p ∈ w.live, ∀ q ∈ w.live, p ≠ q →
    ∀ i < payloadLen w.st p, ∀ j < payloadLen w.st q, p + i ≠ q + j := by
  intro p hp q hq hpq i hi j hj heq
  have := h.apart hp hq hpq
  omega

/-- `malloc_3` implements it as long as its releases are quiet and nothing grows in place. -/
def allocator (base : ℕ) : Allocator World (Ask × ℕ) where
  Step := Answers
  heap := heapOf
  Asks := Asks
  Inv := WInv base
  step_heap := by
    intro w w' c e hi hs hasks hfits
    obtain ⟨hi', e', hasks', hstep⟩ := hs.refines hi
    exact ⟨hi', hstep.of_event hi.disjoint hfits (hasks.unique hasks')⟩

end Malloc3

/-- **A client cannot tell `malloc_2` from `malloc_3`.** The same statements with the same calls succeeding, writes
within the sizes asked for: every byte that has a value, because it was written, came as zero from `scalloc` or was
carried along by `srealloc`, has that value in the memory of both, wherever the pointers point. -/
theorem clients_agree {m₂ m₃ : Mem} {brk₀ ck brk : ℕ} (h₀ : 0 < brk₀) (h₁ : brk₀ < 2 ^ 64) (hb : Malloc3.Boots ck brk)
    {ds : List Deed} (hds : Lawful (fun _ => []) ds) {w₂ : Malloc2.World} {w₃ : Malloc3.World} {env₂ env₃ : Env}
    (hr₂ : Run (Malloc2.allocator brk₀).ClientStep (Malloc2.start m₂ brk₀, fun _ => 0) ds (w₂, env₂))
    (hr₃ : Run (Malloc3.allocator (Malloc3.arenaBase brk)).ClientStep (Malloc3.start m₃ ck brk, fun _ => 0) ds
      (w₃, env₃)) {x i : ℕ} {v : UInt8} (hv : (known ds x)[i]? = some (some v)) :
    w₂.st.mem (env₂ x + i) = v ∧ w₃.st.mem (env₃ x + i) = v := by
  obtain ⟨l, l', hl, hl', hi, hi'⟩ := Allocator.agree hr₂ (Malloc2.inv_start h₀ h₁) rfl hr₃ (Malloc3.wInv_start m₃ hb)
    rfl hds hv
  exact ⟨read_image hl hi, read_image hl' hi'⟩

/-- `x = smalloc(65000); x[7] = 42; x = srealloc(x, 65200);` -/
def enlarged : List Deed := [.alloc 0 65000 true, .write 0 7 42, .realloc 0 65200 true]

theorem run_enlarged {S C : Type} (A : Allocator S C) {s t u v : S} {c c' c'' : C} {p q : ℕ} (hp : p ≠ 0) (hq : q ≠ 0)
    (hc : A.Asks c (.alloc 65000 p)) (hs : A.Step s c t) (hc' : A.Asks c' (.write p 7 42)) (hs' : A.Step t c' u)
    (hc'' : A.Asks c'' (.realloc p 65200 q)) (hs'' : A.Step u c'' v) :
    ∃ env, Run A.ClientStep (s, fun _ => 0) enlarged (v, env) := by
  have hself : Function.update (fun _ => 0 : Env) 0 p 0 = p := by rw [Function.update_self]
  have halloc : Says (fun _ => 0) (.alloc 0 65000 true) (.alloc 65000 p) (Function.update (fun _ => 0) 0 p) :=
    .alloc 0 65000 hp
  have hwrite : Says (Function.update (fun _ => 0) 0 p) (.write 0 7 42) _ _ := .write 0 7 42
  have hrealloc : Says (Function.update (fun _ => 0) 0 p) (.realloc 0 65200 true) _ _ := .realloc 0 65200 hq
  rw [hself] at hwrite hrealloc
  have h₁ : A.ClientStep (s, fun _ => 0) _ (t, _) := ⟨c, _, halloc, hc, hs⟩
  have h₂ : A.ClientStep (t, _) _ (u, _) := ⟨c', _, hwrite, hc', hs'⟩
  have h₃ : A.ClientStep (u, _) _ (v, _) := ⟨c'', _, hrealloc, hc'', hs''⟩
  exact ⟨_, .cons h₁ (.cons h₂ (.cons h₃ (.nil _)))⟩

/-- `malloc_2` moves the block. -/
theorem exists_enlarged₂ : ∃ w env,
    Run (Malloc2.allocator 4096).ClientStep (Malloc2.start (fun _ => 0) 4096, fun _ => 0) enlarged (w, env) := by
  obtain ⟨w, hw⟩ := Option.isSome_iff_exists.mp (show (Malloc2.answersWith 3 (Malloc2.start (fun _ => 0) 4096)
    [(.smalloc true 65000, 4128), (.write (4128 + 7) 42, 0), (.srealloc true 4128 65200, 69160)]).isSome = true by
      decide +kernel)
  obtain ⟨_, h₁, h⟩ := (Malloc2.run_of_answersWith hw).uncons
  obtain ⟨_, h₂, h⟩ := h.uncons
  exact ⟨w, run_enlarged _ (by norm_num) (by norm_num) (.smalloc true 65000 4128) h₁ (.write 4128 7 0 42) h₂
    (.srealloc true 4128 65200 69160) h.single⟩

/-- `malloc_3` has room for it in the block. -/
theorem exists_enlarged₃ : ∃ w env,
    Run (Malloc3.allocator (Malloc3.arenaBase 4198400)).ClientStep (Malloc3.start (fun _ => 0) 0 4198400, fun _ => 0)
      enlarged (w, env) := by
  obtain ⟨w, hrun, hw, -, hlive, -, hlen⟩ := Malloc3.exists_oneBlock
  have hclean : Malloc3.CleanStep _ (.op (.smalloc ⟨true, none⟩ 65000)) w := ⟨hrun.single, trivial⟩
  obtain ⟨cs, hcs, hops⟩ := Malloc3.exists_answers (Run.cons hclean (.nil w))
  obtain ⟨⟨c, p⟩, _, hc, hnil, rfl⟩ := List.forall₂_cons_left_iff.mp hops
  cases hnil
  obtain rfl : c = .smalloc ⟨true, none⟩ 65000 := hc
  have hcall := hcs.single
  obtain ⟨rfl, hp⟩ : p = 8388648 ∧ p ≠ 0 := by
    have hholds := hcall.2.2
    rw [hlive] at hholds
    change _ = Malloc3.track p [] at hholds
    unfold Malloc3.track at hholds
    by_cases h0 : p = 0
    · rw [if_pos h0] at hholds
      cases hholds
    · rw [if_neg h0] at hholds
      exact ⟨(List.cons.inj hholds).1.symm, h0⟩
  have hmem : 8388648 ∈ w.live := hlive ▸ List.mem_singleton_self _
  have hfits : 7 < Malloc3.payloadLen w.st 8388648 := by rw [hlen]; decide
  generalize hm : Function.update w.st.mem (8388648 + 7) 42 = m
  have hwrite : Malloc3.Answers w (.write (8388648 + 7) 42, 0) ⟨{ w.st with mem := m }, w.live⟩ :=
    ⟨⟨8388648, hmem, by omega, by omega⟩, .const (by rw [hm]), rfl⟩
  obtain ⟨-, hkept, -⟩ := hw.wrote hmem (m := m) fun x hx => by
    rw [← hm]
    exact Function.update_of_ne (by omega) _ _
  have hroom : 65200 ≤ Malloc3.payloadLen { w.st with mem := m } 8388648 := by
    rw [hkept _ hmem, hlen]
    decide
  have hrealloc : Malloc3.Answers ⟨{ w.st with mem := m }, w.live⟩
      (.srealloc ⟨true, none⟩ 8388648 65200, 8388648) _ :=
    Malloc3.answers_srealloc_fits _ hmem hp (by norm_num) (by norm_num [Malloc3.maxSize]) hroom
  exact ⟨_, run_enlarged _ hp hp (.smalloc _ 65000 _) hcall (.write _ 7 0 42) hwrite (.srealloc _ _ 65200 _) hrealloc⟩

theorem clients_agree_enlarged : ∃ w₂ env₂ w₃ env₃,
    Run (Malloc2.allocator 4096).ClientStep (Malloc2.start (fun _ => 0) 4096, fun _ => 0) enlarged (w₂, env₂) ∧
    Run (Malloc3.allocator (Malloc3.arenaBase 4198400)).ClientStep
      (Malloc3.start (fun _ => 0) 0 4198400, fun _ => 0) enlarged (w₃, env₃) ∧
    w₂.st.mem (env₂ 0 + 7) = 42 ∧ w₃.st.mem (env₃ 0 + 7) = 42 := by
  obtain ⟨w₂, env₂, h₂⟩ := exists_enlarged₂
  obtain ⟨w₃, env₃, h₃⟩ := exists_enlarged₃
  have hlawful : Lawful (fun _ => []) enlarged := by
    simp [enlarged, Lawful, Deed.InRange, Deed.after, -List.reduceReplicate]
  have hknown : (known enlarged 0)[7]? = some (some 42) := by
    simp [known, enlarged, Deed.after, resize, -List.reduceReplicate]
  exact ⟨w₂, env₂, w₃, env₃, h₂, h₃,
    clients_agree (by norm_num) (by norm_num) Malloc3.boots_example hlawful h₂ h₃ hknown⟩

end OsHomework
