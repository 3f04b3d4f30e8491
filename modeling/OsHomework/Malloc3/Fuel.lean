import OsHomework.Malloc3.Model

/-!
# `malloc_3`: more fuel changes nothing

Every call of the allocator `Settles`: once there is enough fuel for an outcome, that is the
outcome. The loops are handled one by one, by induction on the fuel.
-/

set_option autoImplicit false

namespace OsHomework.Malloc3

variable {s : State} {addr size : ℕ}

theorem settles_splitLoop : Settles fun n => splitLoop n s addr size := by
  intro n
  induction n generalizing s with
  | zero => exact fun h => absurd rfl h
  | succ n ih =>
    intro hne
    beta_reduce at hne ih ⊢
    conv_lhs => rw [splitLoop]
    conv_rhs => rw [splitLoop]
    rw [splitLoop] at hne
    split_ifs at hne ⊢ with h₁ h₂
    · exact Outcome.bind_of_ne_fuel (fun t ht => ih ht) hne
    · rfl
    · rfl

theorem settles_unionLoop {buddy : ℕ} : Settles fun n => unionLoop n s addr buddy := by
  intro n
  induction n generalizing s addr buddy with
  | zero => exact fun h => absurd rfl h
  | succ n ih =>
    intro hne
    beta_reduce at hne ih ⊢
    conv_lhs => rw [unionLoop]
    conv_rhs => rw [unionLoop]
    rw [unionLoop] at hne
    split_ifs at hne ⊢ with h₁
    · exact Outcome.bind_of_ne_fuel (fun t ht => ih ht) hne
    · rfl

theorem settles_checkLoop {fakeAddr fakeBuddy : ℕ} {fakeAddrMm fakeBuddyMm : MallocMetadata} :
    Settles fun n => checkLoop s addr size n fakeAddr fakeBuddy fakeAddrMm fakeBuddyMm := by
  intro n
  induction n generalizing fakeAddr fakeBuddy fakeAddrMm fakeBuddyMm with
  | zero => exact fun h => absurd rfl h
  | succ n ih =>
    intro hne
    beta_reduce at hne ih ⊢
    conv_lhs => rw [checkLoop]
    conv_rhs => rw [checkLoop]
    rw [checkLoop] at hne
    split_ifs at hne ⊢ with h₁ h₂ h₃
    · rfl
    · exact Outcome.bind_of_ne_fuel (fun _ hb =>
        Outcome.bind_of_ne_fuel (fun _ ht => ih ht) hb) hne
    · exact Outcome.bind_of_ne_fuel (fun _ hb =>
        Outcome.bind_of_ne_fuel (fun _ ht => ih ht) hb) hne
    · rfl

theorem settles_sreallocLoop {buddy : ℕ} : Settles fun n => sreallocLoop size n s addr buddy := by
  intro n
  induction n generalizing s addr buddy with
  | zero => exact fun h => absurd rfl h
  | succ n ih =>
    intro hne
    beta_reduce at hne ih ⊢
    conv_lhs => rw [sreallocLoop]
    conv_rhs => rw [sreallocLoop]
    rw [sreallocLoop] at hne
    split_ifs at hne ⊢ with h₁
    · exact Outcome.bind_of_ne_fuel (fun t ht => ih ht) hne
    · rfl

theorem settles_lastMmap {m : Mem} {curr last : ℕ} : Settles fun n => lastMmap m n curr last := by
  intro n
  induction n generalizing curr last with
  | zero => exact fun h => absurd rfl h
  | succ n ih =>
    intro hne
    beta_reduce at hne ih ⊢
    conv_lhs => rw [lastMmap]
    conv_rhs => rw [lastMmap]
    rw [lastMmap] at hne
    split_ifs at hne ⊢ with h₁
    · exact ih hne
    · rfl

theorem settles_prevMmap {m : Mem} {start curr last : ℕ} :
    Settles fun n => prevMmap m start n curr last := by
  intro n
  induction n generalizing curr last with
  | zero => exact fun h => absurd rfl h
  | succ n ih =>
    intro hne
    beta_reduce at hne ih ⊢
    conv_lhs => rw [prevMmap]
    conv_rhs => rw [prevMmap]
    rw [prevMmap] at hne
    split_ifs at hne ⊢ with h₁ h₂
    · rfl
    · exact ih hne
    · rfl

theorem settles_ite {α : Type} {p : Prop} [Decidable p] {f g : ℕ → Outcome α} (hf : Settles f)
    (hg : Settles g) : Settles fun n => if p then f n else g n := by
  by_cases h : p
  · simpa only [if_pos h] using hf
  · simpa only [if_neg h] using hg

theorem settles_splitIfPossible : Settles fun n => splitIfPossible n s addr size :=
  settles_ite (.const _) (settles_splitLoop.bind fun _ => .const _)

theorem settles_unionIfPossible : Settles fun n => unionIfPossible n s addr :=
  settles_ite (.const _) (.bind (.const _) fun _ => settles_unionLoop.bind fun _ => .const _)

theorem settles_linkMmap : Settles fun n => linkMmap n s addr size :=
  settles_ite (.const _) (settles_lastMmap.bind fun _ => .const _)

theorem settles_malloc {sys : Sys} : Settles fun n => malloc sys n s size := by
  refine settles_ite (.const _) (settles_ite ?_ ?_)
  · cases sys.mmapAddr with
    | none => exact .const _
    | some a => exact settles_linkMmap.bind fun _ => .const _
  · cases getFreeBlock (if s.head = 0 then initArena s sys.sbrkOk else s) size with
    | none => exact .const _
    | some r => exact settles_splitIfPossible.bind fun _ => .const _

theorem settles_free {p : ℕ} : Settles fun n => free n s p :=
  settles_ite (.const _) <| settles_ite
    (settles_ite (.const _) (settles_prevMmap.bind fun _ => .const _)) settles_unionIfPossible

theorem settles_scalloc {sys : Sys} {num : ℕ} : Settles fun n => scalloc sys n s num size :=
  settles_ite (.const _) (settles_malloc.bind fun _ => .const _)

theorem settles_checkIfUnionIsPossible : Settles fun n => checkIfUnionIsPossible n s addr size :=
  .bind (.const _) fun _ => settles_checkLoop

theorem settles_sreallocUnion : Settles fun n => sreallocUnion n s addr size :=
  .bind (.const _) fun _ => settles_sreallocLoop.bind fun _ => .const _

theorem settles_sreallocList {sys : Sys} {oldp : ℕ} :
    Settles fun n => sreallocList sys n s oldp size := by
  refine settles_ite (.const _) (settles_checkIfUnionIsPossible.bind fun _ => settles_ite ?_ ?_)
  · exact settles_sreallocUnion.bind fun _ => .const _
  · exact settles_malloc.bind fun _ => settles_ite (.const _) (settles_free.bind fun _ => .const _)

theorem settles_srealloc {sys : Sys} {oldp : ℕ} : Settles fun n => srealloc sys n s oldp size :=
  settles_ite (.const _) (settles_ite settles_malloc settles_sreallocList)

end OsHomework.Malloc3
