import Mathlib.Logic.Relation
import OsHomework.Lib.Descriptors
import OsHomework.Smash.Parse

/-!
# The processes of a line

`PipeCommand::execute`, `RedirectionCommand::execute` and `ExternalCommand::execute` once more, for what becomes
of the descriptors: the children run `executeCommand` on a part of the line, and fork in their turn.

* `File`: what a descriptor refers to. A process makes one pipe at most, so a pipe is named by its maker;
* `cut`: the line at its first `|` or `>`;
* `launch`: the processes of a line, each with its descriptors when it runs its program or waits. A child comes
  before the process that has forked it;
* **`pipe_ends_held`**: who holds an end of a pipe;
* `Process.Needs`, **`no_cyclic_wait`**: no processes wait for each other in a circle.

`fork`, `exec` and `pipe` succeed.
-/

set_option autoImplicit false

namespace OsHomework.Smash

/-- Where a process comes from: `[]` is the shell, and `i :: id` a child of `id`. -/
abbrev ProcId := List ℕ

inductive File where
  /-- What the shell had open. -/
  | inherited (name : ℕ)
  | readEnd (maker : ProcId)
  | writeEnd (maker : ProcId)
  | opened (name : List Char) (isAppend : Bool)
  deriving DecidableEq

inductive Program where
  /-- `execvp(file, argv)`. -/
  | exec (file : List Char) (argv : List (List Char))
  /-- `bash -c`. -/
  | bash (cmdLine : List Char)
  /-- A command of the shell, in this process. -/
  | builtin (c : Cmd)
  deriving DecidableEq

inductive Doing where
  | runs (program : Program)
  | waits (child : ProcId)
  /-- It has started a command in the background. -/
  | leaves
  /-- `open` has failed. -/
  | exits
  /-- An exception that nobody catches. -/
  | aborts
  | undefined
  | outOfFuel
  deriving DecidableEq

structure Process where
  id : ProcId
  fds : Fds File
  doing : Doing

/-- The two parts of a line. -/
structure Cut where
  first : List Char
  /-- The operator has its second character. -/
  isMarked : Bool
  second : List Char
  deriving DecidableEq

/-- The line at the first `op`; `none` if `at` throws. -/
def cut (op mark : Char) (cmdS : List Char) : Option Cut :=
  (charAfter op cmdS).map fun c =>
    let first := cmdS.takeWhile (· ≠ op)
    ⟨first, c = mark, trim (cmdS.drop (first.length + 1 + (decide (c = mark)).toNat))⟩

/-- The child of `ExternalCommand::execute`. -/
def externalChild (c : Cmd) : Doing :=
  let cmdS := trim c.cmdLine
  if '*' ∈ cmdS ∨ '?' ∈ cmdS then .runs (.bash c.cmdLine)
  -- without a word nothing of argv has been written
  else if c.argv = [] then .undefined
  else .runs (.exec (cmdS.takeWhile fun c => c ≠ ' ' ∧ c ≠ '\n') c.argv)

/-- The father waits for the child, or not. -/
def father (c : Cmd) (child : ProcId) : Doing := if c.isBackground then .leaves else .waits child

/-- The table with the pipe that `id` makes. -/
def withPipe (id : ProcId) (F : Fds File) : Piped File := F.pipe (.readEnd id) (.writeEnd id)

/-- The first child: the write end is its `stdout` or `stderr`. -/
def firstChild (id : ProcId) (F : Fds File) (isErrorPipe : Bool) : Fds File :=
  Fds.moveEnd (withPipe id F) (withPipe id F).writeFd (if isErrorPipe then 2 else 1)

/-- The second child: the read end is its `stdin`. -/
def secondChild (id : ProcId) (F : Fds File) : Fds File := Fds.moveEnd (withPipe id F) (withPipe id F).readFd 0

/-- The process that has made the pipe closes both ends. -/
def closePipe (id : ProcId) (F : Fds File) : Fds File :=
  ((withPipe id F).table.close (withPipe id F).readFd).close (withPipe id F).writeFd

/-- `executeCommand` in the process `id`. -/
def launch (canOpen : List Char → Bool → Bool) : ℕ → ProcId → Fds File → List Char → List Process
  | 0, id, F, _ => [⟨id, F, .outOfFuel⟩]
  | n + 1, id, F, cmdLine =>
    match createCommand cmdLine with
    | .ret c =>
      match c.kind with
      | .pipe =>
        match cut '|' '&' (trim c.cmdLine) with
        | none => [⟨id, F, .aborts⟩]
        | some x =>
          launch canOpen n (0 :: id) (firstChild id F x.isMarked) x.first ++
            launch canOpen n (1 :: id) (secondChild id F) x.second ++
            [⟨id, closePipe id F, .waits (1 :: id)⟩]
      | .redirection =>
        match cut '>' '>' (trim c.cmdLine) with
        | none => [⟨id, F, .aborts⟩]
        | some x =>
          (if canOpen x.second x.isMarked then
            launch canOpen n (0 :: id) (F.reopen 1 (.opened x.second x.isMarked)) x.first
          else [⟨0 :: id, F.close 1, .exits⟩]) ++
            [⟨id, F, father c (0 :: id)⟩]
      | .external => [⟨0 :: id, F, externalChild c⟩, ⟨id, F, father c (0 :: id)⟩]
      | _ => [⟨id, F, .runs (.builtin c)⟩]
    | .exit _ => [⟨id, F, .aborts⟩]
    | .ub => [⟨id, F, .undefined⟩]
    | .fuel => [⟨id, F, .outOfFuel⟩]

/-! ## The tables of the children -/

section Tables

variable {id : ProcId} {F : Fds File} {fd : ℕ} {f : File}

theorem get_closePipe (id : ProcId) (F : Fds File) : (closePipe id F).get = F.get :=
  Fds.get_pipe_closed F _ _

theorem mem_firstChild {isErrorPipe : Bool} (h : (firstChild id F isErrorPipe).get fd = some f) :
    F.get fd = some f ∨ f = .writeEnd id :=
  Fds.mem_moveEnd_pipe (Fds.get_writeFd F _ _) h

theorem mem_secondChild (h : (secondChild id F).get fd = some f) : F.get fd = some f ∨ f = .readEnd id :=
  Fds.mem_moveEnd_pipe (Fds.get_readFd F _ _) h

end Tables

/-! ## Induction over the forks -/

section Induction

theorem length_trim_le (s : List Char) : (trim s).length ≤ s.length := by
  rw [trim, List.length_reverse]
  have h₁ := (List.dropWhile_suffix (l := (s.dropWhile isSpace).reverse) isSpace).length_le
  have h₂ := (List.dropWhile_suffix (l := s) isSpace).length_le
  rw [List.length_reverse] at h₁
  omega

theorem length_cut {op mark : Char} {cmdLine : List Char} {x : Cut} (h : cut op mark (trim cmdLine) = some x)
    (hop : op ∈ trim cmdLine) : x.first.length < cmdLine.length ∧ x.second.length < cmdLine.length := by
  obtain ⟨c, -, rfl⟩ := Option.map_eq_some_iff.mp h
  have hlen := length_trim_le cmdLine
  have hpos := List.length_pos_of_mem hop
  constructor
  · have hle := (List.takeWhile_prefix (l := trim cmdLine) (· ≠ op)).length_le
    rcases Nat.lt_or_ge ((trim cmdLine).takeWhile (· ≠ op)).length (trim cmdLine).length with hlt | hge
    · dsimp only
      omega
    · -- the line has no operator
      have hall := (List.takeWhile_prefix (l := trim cmdLine) (· ≠ op)).eq_of_length_le hge
      rw [← hall] at hop
      have hne := List.mem_takeWhile_imp hop
      simp at hne
  · have := length_trim_le ((trim cmdLine).drop
      (((trim cmdLine).takeWhile (· ≠ op)).length + 1 + (decide (c = mark)).toNat))
    rw [List.length_drop] at this
    dsimp only
    omega

theorem ite_ne_kind {p : Prop} [Decidable p] {k k' kind : Kind} (h : k ≠ kind) (h' : k' ≠ kind) :
    (if p then k else k') ≠ kind := by
  split
  next => exact h
  next => exact h'

theorem kindOfLine_pipe {cmdLine : List Char} : kindOfLine cmdLine = .pipe ↔ '|' ∈ trim cmdLine := by
  refine ⟨fun h => ?_, fun h => by rw [kindOfLine, kindOf, if_pos h]⟩
  by_contra hno
  rw [kindOfLine, kindOf, if_neg hno] at h
  refine absurd h ?_
  iterate 13 refine ite_ne_kind (by decide) ?_
  decide

theorem kindOfLine_redirection {cmdLine : List Char} (hno : '|' ∉ trim cmdLine) :
    kindOfLine cmdLine = .redirection ↔ '>' ∈ trim cmdLine := by
  refine ⟨fun h => ?_, fun h => by rw [kindOfLine, kindOf, if_neg hno, if_pos h]⟩
  by_contra hno'
  rw [kindOfLine, kindOf, if_neg hno, if_neg hno'] at h
  refine absurd h ?_
  iterate 12 refine ite_ne_kind (by decide) ?_
  decide

theorem mem_of_redirection {cmdLine : List Char} (h : kindOfLine cmdLine = .redirection) : '>' ∈ trim cmdLine := by
  refine (kindOfLine_redirection fun hpipe => ?_).mp h
  rw [kindOfLine_pipe.mpr hpipe] at h
  cases h

variable {canOpen : List Char → Bool → Bool} {motive : ProcId → Fds File → List Process → Prop}

/-- **The rule for the processes of a line.** -/
theorem launch_induction
    (one : ∀ id F doing, (∀ child, doing ≠ .waits child) → doing ≠ .outOfFuel → motive id F [⟨id, F, doing⟩])
    (external : ∀ id F c, motive id F [⟨0 :: id, F, externalChild c⟩, ⟨id, F, father c (0 :: id)⟩])
    (noFile : ∀ id F c, motive id F [⟨0 :: id, F.close 1, .exits⟩, ⟨id, F, father c (0 :: id)⟩])
    (redirection : ∀ id F c name isAppend l, motive (0 :: id) (F.reopen 1 (.opened name isAppend)) l →
      motive id F (l ++ [⟨id, F, father c (0 :: id)⟩]))
    (pipe : ∀ id F isErrorPipe l₁ l₂, motive (0 :: id) (firstChild id F isErrorPipe) l₁ →
      motive (1 :: id) (secondChild id F) l₂ →
      motive id F (l₁ ++ l₂ ++ [⟨id, closePipe id F, .waits (1 :: id)⟩]))
    (n : ℕ) (id : ProcId) (F : Fds File) (cmdLine : List Char) (hn : cmdLine.length < n) :
    motive id F (launch canOpen n id F cmdLine) := by
  induction n generalizing id F cmdLine with
  | zero => exact absurd hn (Nat.not_lt_zero _)
  | succ n ih =>
    rw [launch, createCommand_eq]
    by_cases hfit : Fitting cmdLine
    · rw [if_pos hfit]
      dsimp only
      cases hk : kindOfLine cmdLine with
      | pipe =>
        cases hx : cut '|' '&' (trim cmdLine) with
        | none => exact one id F .aborts (by simp) (by simp)
        | some x =>
          obtain ⟨h₁, h₂⟩ := length_cut hx (kindOfLine_pipe.mp hk)
          exact pipe id F _ _ _ (ih _ _ _ (by omega)) (ih _ _ _ (by omega))
      | redirection =>
        cases hx : cut '>' '>' (trim cmdLine) with
        | none => exact one id F .aborts (by simp) (by simp)
        | some x =>
          obtain ⟨h₁, -⟩ := length_cut hx (mem_of_redirection hk)
          by_cases hopen : canOpen x.second x.isMarked
          · simp only [hopen, if_true]
            exact redirection id F _ _ _ _ (ih _ _ _ (by omega))
          · simp only [hopen]
            exact noFile id F _
      | external => exact external id F _
      | _ => exact one id F _ (by simp) (by simp)
    · rw [if_neg hfit]
      exact one id F .undefined (by simp) (by simp)

end Induction

/-! ## Who holds what -/

/-- An end of a pipe belongs to one of the two children of its maker, and to whom they have forked. -/
def File.Belongs (f : File) (id : ProcId) : Prop :=
  match f with
  | .writeEnd r => 0 :: r <:+ id
  | .readEnd r => 1 :: r <:+ id
  | _ => True

/-- Every end of a pipe in the table belongs to the process. -/
def Owns (id : ProcId) (F : Fds File) : Prop := ∀ fd f, F.get fd = some f → f.Belongs id

/-- The processes that `id` and its descendants are. -/
structure Family (id : ProcId) (F : Fds File) (l : List Process) : Prop where
  descends : ∀ q ∈ l, id <:+ q.id
  owns : Owns id F → ∀ q ∈ l, Owns q.id q.fds
  waits : ∀ q ∈ l, ∀ child, q.doing = .waits child → ∃ i, child = i :: q.id
  fuel : ∀ q ∈ l, q.doing ≠ .outOfFuel
  /-- The process itself comes last, with its own descriptors. -/
  last : ∃ l' G doing, l = l' ++ [⟨id, G, doing⟩] ∧ G.get = F.get

section Family

variable {id id' : ProcId} {F G : Fds File} {f : File} {c : Cmd} {q : Process}
  {l l₁ l₂ : List Process} {doing : Doing}

theorem File.Belongs.mono (h : f.Belongs id) (hid : id <:+ id') : f.Belongs id' := by
  cases f with
  | writeEnd r | readEnd r => exact h.trans hid
  | inherited name | opened name isAppend => trivial

theorem owns_firstChild {isErrorPipe : Bool} (h : Owns id F) : Owns (0 :: id) (firstChild id F isErrorPipe) := by
  intro fd f hf
  rcases mem_firstChild hf with hf | rfl
  · exact (h fd f hf).mono (List.suffix_cons 0 id)
  · exact List.suffix_rfl

theorem owns_secondChild (h : Owns id F) : Owns (1 :: id) (secondChild id F) := by
  intro fd f hf
  rcases mem_secondChild hf with hf | rfl
  · exact (h fd f hf).mono (List.suffix_cons 1 id)
  · exact List.suffix_rfl

theorem owns_reopen {name : List Char} {isAppend : Bool} (h : Owns id F) :
    Owns (0 :: id) (F.reopen 1 (.opened name isAppend)) := by
  intro fd f hf
  rcases Fds.mem_reopen hf with hf | rfl
  · exact (h fd f hf).mono (List.suffix_cons 0 id)
  · trivial

theorem owns_close (h : Owns id F) : Owns (0 :: id) (F.close 1) := by
  intro fd f hf
  rw [Fds.get_close] at hf
  by_cases hfd : fd = 1
  · rw [hfd, Function.update_self] at hf
    cases hf
  · rw [Function.update_of_ne hfd] at hf
    exact (h fd f hf).mono (List.suffix_cons 0 id)

theorem father_waits {child child' : ProcId} (h : father c child = .waits child') : child' = child := by
  unfold father at h
  split at h
  next => cases h
  next => exact (Doing.waits.inj h).symm

theorem father_fuel {child : ProcId} : father c child ≠ .outOfFuel := by
  unfold father
  split <;> exact Doing.noConfusion

theorem externalChild_spec : (∀ child, externalChild c ≠ .waits child) ∧ externalChild c ≠ .outOfFuel := by
  unfold externalChild
  dsimp only
  split
  · exact ⟨fun _ => Doing.noConfusion, Doing.noConfusion⟩
  · split <;> exact ⟨fun _ => Doing.noConfusion, Doing.noConfusion⟩

/-- **A process is added to its children.** -/
theorem Family.snoc (hdesc : ∀ q ∈ l, id <:+ q.id) (howns : Owns id F → ∀ q ∈ l, Owns q.id q.fds)
    (hwaits : ∀ q ∈ l, ∀ child, q.doing = .waits child → ∃ i, child = i :: q.id)
    (hfuel : ∀ q ∈ l, q.doing ≠ .outOfFuel) (hG : G.get = F.get)
    (hself : ∀ child, doing = .waits child → ∃ i, child = i :: id) (hdoing : doing ≠ .outOfFuel) :
    Family id F (l ++ [⟨id, G, doing⟩]) := by
  have hmem : ∀ q ∈ l ++ [⟨id, G, doing⟩], q ∈ l ∨ q = ⟨id, G, doing⟩ := fun q hq => by simpa using hq
  refine ⟨fun q hq => ?_, fun hown q hq => ?_, fun q hq => ?_, fun q hq => ?_, l, G, doing, rfl, hG⟩
  · rcases hmem q hq with hq | rfl
    · exact hdesc q hq
    · exact List.suffix_rfl
  · rcases hmem q hq with hq | rfl
    · exact howns hown q hq
    · intro fd f hf
      rw [hG] at hf
      exact hown fd f hf
  · rcases hmem q hq with hq | rfl
    · exact hwaits q hq
    · exact hself
  · rcases hmem q hq with hq | rfl
    · exact hfuel q hq
    · exact hdoing

theorem family_launch (canOpen : List Char → Bool → Bool) (n : ℕ) (id : ProcId) (F : Fds File)
    (cmdLine : List Char) (hn : cmdLine.length < n) :
    Family id F (launch canOpen n id F cmdLine) := by
  refine launch_induction ?one ?external ?noFile ?redirection ?pipe n id F cmdLine hn
  case one =>
    intro id F doing hwaits hfuel
    exact Family.snoc (l := []) (by simp) (by simp) (by simp) (by simp) rfl (fun child h => absurd h (hwaits child))
      hfuel
  case external =>
    intro id F c
    refine Family.snoc (l := [_]) ?_ ?_ ?_ ?_ rfl (fun child h => ⟨0, father_waits h⟩) father_fuel
    · simp
    · intro hown q hq
      obtain rfl := List.mem_singleton.mp hq
      exact fun fd f hf => (hown fd f hf).mono (List.suffix_cons 0 id)
    · intro q hq child hwaits
      obtain rfl := List.mem_singleton.mp hq
      exact absurd hwaits (externalChild_spec.1 child)
    · intro q hq
      obtain rfl := List.mem_singleton.mp hq
      exact externalChild_spec.2
  case noFile =>
    intro id F c
    refine Family.snoc (l := [_]) ?_ ?_ ?_ ?_ rfl (fun child h => ⟨0, father_waits h⟩) father_fuel
    · simp
    · intro hown q hq
      obtain rfl := List.mem_singleton.mp hq
      exact owns_close hown
    · simp
    · simp
  case redirection =>
    intro id F c name isAppend l h
    exact Family.snoc (fun q hq => (List.suffix_cons 0 id).trans (h.descends q hq))
      (fun hown => h.owns (owns_reopen hown)) h.waits h.fuel rfl (fun child h => ⟨0, father_waits h⟩) father_fuel
  case pipe =>
    intro id F isErrorPipe l₁ l₂ h₁ h₂
    have hmem : ∀ q ∈ l₁ ++ l₂, q ∈ l₁ ∨ q ∈ l₂ := fun q hq => List.mem_append.mp hq
    refine Family.snoc (fun q hq => ?_) (fun hown q hq => ?_) (fun q hq => ?_) (fun q hq => ?_) (get_closePipe id F)
      (fun child h => ⟨1, (Doing.waits.inj h).symm⟩) Doing.noConfusion
    · rcases hmem q hq with hq | hq
      · exact (List.suffix_cons 0 id).trans (h₁.descends q hq)
      · exact (List.suffix_cons 1 id).trans (h₂.descends q hq)
    · rcases hmem q hq with hq | hq
      · exact h₁.owns (owns_firstChild hown) q hq
      · exact h₂.owns (owns_secondChild hown) q hq
    · rcases hmem q hq with hq | hq
      · exact h₁.waits q hq
      · exact h₂.waits q hq
    · rcases hmem q hq with hq | hq
      · exact h₁.fuel q hq
      · exact h₂.fuel q hq

end Family

/-- No end of a pipe is open: the shell has what it was started with. -/
def NoEnds (F : Fds File) : Prop := ∀ fd f, F.get fd = some f → ∀ r, f ≠ .readEnd r ∧ f ≠ .writeEnd r

theorem NoEnds.owns {F : Fds File} (h : NoEnds F) (id : ProcId) : Owns id F := by
  intro fd f hf
  cases f with
  | readEnd r => exact absurd rfl (h fd _ hf r).1
  | writeEnd r => exact absurd rfl (h fd _ hf r).2
  | inherited name | opened name isAppend => trivial

/-- **Who holds the ends of a pipe**, whatever the line and whatever the shell has open, also when some of its first
three descriptors are closed: the write end of a pipe is open in its maker's first child and the processes that come
from there only, and the read end in the second child and the processes that come from there. The shell itself is left
with the descriptors it had. So nobody outside the first part of the line keeps a reader from the end of the file. -/
theorem pipe_ends_held (canOpen : List Char → Bool → Bool) (F : Fds File) (hF : NoEnds F) (cmdLine : List Char) :
    (∀ q ∈ launch canOpen (cmdLine.length + 1) [] F cmdLine, ∀ fd r,
      (q.fds.get fd = some (.writeEnd r) → 0 :: r <:+ q.id) ∧
        (q.fds.get fd = some (.readEnd r) → 1 :: r <:+ q.id) ∧ q.doing ≠ .outOfFuel) ∧
      ∃ l G doing, launch canOpen (cmdLine.length + 1) [] F cmdLine = l ++ [⟨[], G, doing⟩] ∧ G.get = F.get := by
  have h := family_launch canOpen (cmdLine.length + 1) [] F cmdLine (Nat.lt_succ_self _)
  exact ⟨fun q hq fd r => ⟨h.owns (hF.owns []) q hq fd _, h.owns (hF.owns []) q hq fd _, h.fuel q hq⟩, h.last⟩

/-- A terminal. -/
def terminal : Fds File := ⟨[some (.inherited 0), some (.inherited 1), some (.inherited 2)]⟩

theorem noEnds_terminal : NoEnds terminal := by
  intro fd f hf r
  rcases fd with _ | _ | _ | fd <;> cases hf <;> exact ⟨File.noConfusion, File.noConfusion⟩

/-- The second of two pipes. -/
theorem pipe_ends_held_two :
    (∃ l G doing, launch (fun _ _ => true) 12 [] terminal "ls | cat|wc".toList = l ++ [⟨[], G, doing⟩] ∧
      G.get = terminal.get) ∧
    ∀ q ∈ launch (fun _ _ => true) 12 [] terminal "ls | cat|wc".toList, ∀ fd,
      q.fds.get fd = some (.writeEnd [1]) → [0, 1] <:+ q.id := by
  have h := pipe_ends_held (fun _ _ => true) terminal noEnds_terminal "ls | cat|wc".toList
  exact ⟨h.2, fun q hq fd => (h.1 q hq fd [1]).1⟩

/-! ## Who waits for whom -/

/-- `q` waits for `q'`, or reads from a pipe that `q'` can still write to. -/
def Process.Needs (q q' : Process) : Prop :=
  q.doing = .waits q'.id ∨ ∃ fd fd' r, q.fds.get fd = some (.readEnd r) ∧ q'.fds.get fd' = some (.writeEnd r)

/-- The same, for two of the processes `l`. -/
def NeedsIn (l : List Process) (q q' : Process) : Prop := q ∈ l ∧ q' ∈ l ∧ q.Needs q'

/-- What `q` may need is not there yet: `q'` is not its child, and not in the first part of a line of whose second
part it is. -/
def Precedes (q q' : Process) : Prop :=
  (∀ i, q'.id ≠ i :: q.id) ∧ ∀ r, ¬ (1 :: r <:+ q.id ∧ 0 :: r <:+ q'.id)

section Order

variable {id r x : ProcId} {i j : ℕ} {q q' : Process}
  {l : List Process}

theorem child_unique (hi : i :: id <:+ x) (hj : j :: id <:+ x) : i = j := by
  have heq := List.suffix_of_suffix_length_le hi hj le_rfl |>.eq_of_length rfl
  exact (List.cons.inj heq).1

theorem not_suffix_child : ¬ i :: id <:+ id := fun h => by
  have := h.length_le
  rw [List.length_cons] at this
  omega

/-- What the first child has forked comes before what the second one has. -/
theorem precedes_siblings (h : 0 :: id <:+ q.id) (h' : 1 :: id <:+ q'.id) : Precedes q q' := by
  constructor
  · intro i hchild
    rw [hchild] at h'
    exact absurd (child_unique (h.trans (List.suffix_cons i q.id)) h') (by decide)
  · rintro r ⟨hr, hr'⟩
    rcases List.suffix_or_suffix_of_suffix hr h with hle | hle
    · -- the pipe was made further up
      have hup : 1 :: r <:+ id := by
        rcases List.suffix_cons_iff.mp hle with heq | hle
        · cases heq
        · exact hle
      exact absurd (child_unique ((hup.trans (List.suffix_cons 1 id)).trans h') hr') (by decide)
    · have hdown : 0 :: id <:+ r := by
        rcases List.suffix_cons_iff.mp hle with heq | hle
        · cases heq
        · exact hle
      exact absurd (child_unique ((hdown.trans (List.suffix_cons 0 r)).trans hr') h') (by decide)

theorem precedes_ancestor (h : q'.id <:+ q.id) : Precedes q q' := by
  constructor
  · intro i hchild
    rw [hchild] at h
    exact not_suffix_child h
  · rintro r ⟨hr, hr'⟩
    exact absurd (child_unique hr (hr'.trans h)) (by decide)

theorem pairwise_snoc (h : l.Pairwise Precedes) (hdesc : ∀ q ∈ l, q'.id <:+ q.id) :
    (l ++ [q']).Pairwise Precedes := by
  refine List.pairwise_append.mpr ⟨h, List.pairwise_singleton _ _, fun q hq u hu => ?_⟩
  obtain rfl := List.mem_singleton.mp hu
  exact precedes_ancestor (hdesc q hq)

theorem pairwise_launch (canOpen : List Char → Bool → Bool) (n : ℕ) (id : ProcId) (F : Fds File)
    (cmdLine : List Char) (hn : cmdLine.length < n) :
    (∀ q ∈ launch canOpen n id F cmdLine, id <:+ q.id) ∧ (launch canOpen n id F cmdLine).Pairwise Precedes := by
  refine launch_induction (motive := fun id _ l => (∀ q ∈ l, id <:+ q.id) ∧ l.Pairwise Precedes)
    ?one ?external ?noFile ?redirection ?pipe n id F cmdLine hn
  case one =>
    intro id F doing _ _
    exact ⟨by simp, List.pairwise_singleton _ _⟩
  case external | noFile =>
    intro id F c
    exact ⟨by simp, pairwise_snoc (l := [_]) (List.pairwise_singleton _ _) (by simp)⟩
  case redirection =>
    intro id F c name isAppend l h
    have hdesc : ∀ q ∈ l, id <:+ q.id := fun q hq => (List.suffix_cons 0 id).trans (h.1 q hq)
    refine ⟨fun q hq => ?_, pairwise_snoc h.2 hdesc⟩
    rcases List.mem_append.mp hq with hq | hq
    · exact hdesc q hq
    · obtain rfl := List.mem_singleton.mp hq
      exact List.suffix_rfl
  case pipe =>
    intro id F isErrorPipe l₁ l₂ h₁ h₂
    have hdesc : ∀ q ∈ l₁ ++ l₂, id <:+ q.id := fun q hq => by
      rcases List.mem_append.mp hq with hq | hq
      · exact (List.suffix_cons 0 id).trans (h₁.1 q hq)
      · exact (List.suffix_cons 1 id).trans (h₂.1 q hq)
    refine ⟨fun q hq => ?_, pairwise_snoc ?_ hdesc⟩
    · rcases List.mem_append.mp hq with hq | hq
      · exact hdesc q hq
      · obtain rfl := List.mem_singleton.mp hq
        exact List.suffix_rfl
    · exact List.pairwise_append.mpr ⟨h₁.2, h₂.2, fun q hq q' hq' => precedes_siblings (h₁.1 q hq) (h₂.1 q' hq')⟩

end Order

/-- In the order of `launch` a process needs earlier ones only. -/
theorem needs_earlier (canOpen : List Char → Bool → Bool) (F : Fds File) (hF : NoEnds F) (cmdLine : List Char)
    {i j : ℕ} {q q' : Process} (hi : (launch canOpen (cmdLine.length + 1) [] F cmdLine)[i]? = some q)
    (hj : (launch canOpen (cmdLine.length + 1) [] F cmdLine)[j]? = some q') (hneeds : q.Needs q') : j < i := by
  have h := family_launch canOpen (cmdLine.length + 1) [] F cmdLine (Nat.lt_succ_self _)
  have hpre := (pairwise_launch canOpen (cmdLine.length + 1) [] F cmdLine (Nat.lt_succ_self _)).2
  have hq := List.mem_of_getElem? hi
  have hq' := List.mem_of_getElem? hj
  -- the two ends belong to the two children of the maker
  have hneeds' : (∃ k, q'.id = k :: q.id) ∨ ∃ r, 1 :: r <:+ q.id ∧ 0 :: r <:+ q'.id := by
    rcases hneeds with hwaits | ⟨fd, fd', r, hr, hw⟩
    · exact .inl (h.waits q hq _ hwaits)
    · exact .inr ⟨r, h.owns (hF.owns []) q hq fd _ hr, h.owns (hF.owns []) q' hq' fd' _ hw⟩
  by_contra hge
  have hprecedes : Precedes q q' := by
    rcases Nat.lt_or_eq_of_le (Nat.le_of_not_lt hge) with hlt | rfl
    · obtain ⟨hil, rfl⟩ := List.getElem?_eq_some_iff.mp hi
      obtain ⟨hjl, rfl⟩ := List.getElem?_eq_some_iff.mp hj
      exact List.pairwise_iff_getElem.mp hpre i j hil hjl hlt
    · obtain rfl := Option.some.inj (hi.symm.trans hj)
      exact precedes_ancestor List.suffix_rfl
  rcases hneeds' with ⟨k, hk⟩ | ⟨r, hr⟩
  · exact hprecedes.1 k hk
  · exact hprecedes.2 r hr

/-- If every process needs earlier ones only, the places of a chain in the list go down. -/
theorem place_lt_of_chain {l : List Process} {q q' : Process}
    (hstep : ∀ {i j : ℕ} {q q' : Process}, l[i]? = some q → l[j]? = some q' → q.Needs q' → j < i)
    (h : Relation.TransGen (NeedsIn l) q q') {i : ℕ} (hi : l[i]? = some q) {j : ℕ} (hj : l[j]? = some q') :
    j < i := by
  induction h generalizing j with
  | single h => exact hstep hi hj h.2.2
  | tail _ h ih =>
    obtain ⟨k, hk⟩ := List.getElem?_of_mem h.1
    exact (hstep hk hj h.2.2).trans (ih hk)

/-- **No processes wait for each other in a circle**, whatever the line: none needs itself, through any number of
others. -/
theorem no_cyclic_wait (canOpen : List Char → Bool → Bool) (F : Fds File) (hF : NoEnds F) (cmdLine : List Char)
    (q : Process) : ¬ Relation.TransGen (NeedsIn (launch canOpen (cmdLine.length + 1) [] F cmdLine)) q q := by
  intro hcycle
  obtain ⟨q', h, -⟩ := Relation.TransGen.head'_iff.mp hcycle
  obtain ⟨i, hi⟩ := List.getElem?_of_mem h.1
  exact Nat.lt_irrefl i (place_lt_of_chain (fun hi hj => needs_earlier canOpen F hF cmdLine hi hj) hcycle hi hi)

/-- `wc` reads from the pipe that `ls` writes to, so `ls` does not wait for `wc`. -/
theorem no_cyclic_wait_two : ∃ q ∈ launch (fun _ _ => true) 8 [] terminal "ls | wc".toList,
    ∃ q' ∈ launch (fun _ _ => true) 8 [] terminal "ls | wc".toList, q.id = [0, 1] ∧ q'.id = [0, 0] ∧
      q.Needs q' ∧ ¬ q'.Needs q := by
  obtain ⟨q, hq, hid, hread⟩ : ∃ q ∈ launch (fun _ _ => true) 8 [] terminal "ls | wc".toList,
      q.id = [0, 1] ∧ q.fds.get 0 = some (.readEnd []) :=
    ⟨_, List.mem_of_getElem? (i := 2) rfl, rfl, rfl⟩
  obtain ⟨q', hq', hid', hwrite⟩ : ∃ q ∈ launch (fun _ _ => true) 8 [] terminal "ls | wc".toList,
      q.id = [0, 0] ∧ q.fds.get 1 = some (.writeEnd []) :=
    ⟨_, List.mem_of_getElem? (i := 0) rfl, rfl, rfl⟩
  have hneeds : q.Needs q' := .inr ⟨0, 1, [], hread, hwrite⟩
  refine ⟨q, hq, q', hq', hid, hid', hneeds, fun hneeds' => ?_⟩
  exact no_cyclic_wait (fun _ _ => true) terminal noEnds_terminal "ls | wc".toList q
    (.tail (.single ⟨hq, hq', hneeds⟩) ⟨hq', hq, hneeds'⟩)

end OsHomework.Smash
