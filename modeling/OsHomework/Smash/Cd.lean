import OsHomework.Lib.Run
import OsHomework.Smash.Survive

/-!
# Going back with `cd -`

Runs of `cd` commands, from the start of the shell.

* `CdCall`: a `cd`, and the tree of directories when it is made;
* `changeDir_cases`: a `cd` reports an error and does nothing else, or it moves;
* `Kept`: no `cd` writes the last of the 101 bytes of `last_path`;
* **`cd_back_iff`**: after a `cd` from `d`, `cd -` goes back to `d` exactly if the path of the directory it comes
  from has at most 100 characters, and the path `d` less than 100 unless the last byte has been 0 all along;
* `no_way_back`: a directory whose path is too long.
-/

set_option autoImplicit false

namespace OsHomework.Smash

/-- A `cd` and the system it meets. No path has a NUL in it. -/
structure CdCall where
  sys : Sys
  cmd : Cmd
  noNul : ∀ cwd path d, sys.chdir cwd path = some d → '\x00' ∉ d

/-- The call is `cd -`. -/
def CdCall.IsBack (l : CdCall) : Prop := ∃ name, l.cmd.argv = [name, ['-']]

/-- `ChangeDirCommand::execute` returns. -/
def CdStep (st : Session) (l : CdCall) (t : Session) : Prop := changeDir l.sys st l.cmd = .ret t

/-- The shell, as the constructor leaves it. -/
structure Session.Started (st : Session) : Prop where
  size : st.lastPath.length = pathMaxLenght
  unset : st.hasLastPath = false
  noNul : '\x00' ∉ st.cwd

/-- The call succeeds, and then `d` is the current directory. -/
def LeadsTo (st : Session) (l : CdCall) (d : List Char) : Prop :=
  ∃ t, CdStep st l t ∧ t.shell.stderr = st.shell.stderr ∧ t.cwd = d

/-! ## The buffer -/

section Buffer

variable {dest src : List Char} {n : ℕ}

theorem takeWhile_string (hsrc : '\x00' ∉ src) (rest : List Char) :
    (src ++ '\x00' :: rest).takeWhile (· ≠ '\x00') = src := by
  rw [List.takeWhile_append_of_pos fun c hc => by simpa using fun h : c = '\x00' => hsrc (h ▸ hc),
    List.takeWhile_cons_of_neg (by simp), List.append_nil]

theorem strncpy_drop : (strncpy dest src n).drop n = dest.drop n := by
  have hlen : ((src ++ List.replicate (n - src.length) '\x00').take n).length = n := by
    simp only [List.length_take, List.length_append, List.length_replicate]
    omega
  rw [strncpy, List.drop_append_of_le_length hlen.ge, List.drop_of_length_le hlen.le, List.nil_append]

theorem cString_strncpy_of_lt (hsrc : '\x00' ∉ src) (h : src.length < n) :
    cString (strncpy dest src n) = .ret src := by
  obtain ⟨k, hk⟩ : ∃ k, n - src.length = k + 1 := ⟨n - src.length - 1, by omega⟩
  have hbuf : strncpy dest src n = src ++ '\x00' :: (List.replicate k '\x00' ++ dest.drop n) := by
    rw [strncpy, List.take_of_length_le (by simp; omega), hk, List.replicate_succ]
    simp
  rw [hbuf, cString, if_pos (by simp), takeWhile_string hsrc]

/-- Without room for the terminator it goes on with what has been behind. -/
theorem cString_strncpy_of_length_eq {b : Char} (hsrc : '\x00' ∉ src) (h : src.length = n) (hdest : dest.drop n = [b]) :
    cString (strncpy dest src n) = if b = '\x00' then .ret src else .ub := by
  have hbuf : strncpy dest src n = src ++ [b] := by
    rw [strncpy, hdest, ← h, Nat.sub_self, List.replicate_zero, List.append_nil, List.take_length]
  rw [hbuf, cString]
  by_cases hb : b = '\x00'
  · rw [if_pos hb, hb, if_pos (by simp), takeWhile_string hsrc]
  · rw [if_neg hb, if_neg (by simpa using ⟨hsrc, Ne.symm hb⟩)]

end Buffer

/-! ## One call -/

section Call

variable {sys : Sys} {st t : Session} {c : Cmd} {l : CdCall}

theorem getcwd_eq_some {newPath : List Char} (h : st.getcwd = some newPath) :
    st.cwd.length < pathMaxLenght ∧ newPath = st.cwd := by
  unfold Session.getcwd at h
  split at h
  next hlen => exact ⟨hlen, (Option.some.inj h).symm⟩
  next => cases h

/-- A `cd` reports an error and does nothing else, or it moves and keeps where it was. -/
theorem changeDir_cases (h : changeDir sys st c = .ret t) :
    (∃ msg, t = st.error msg) ∨
      ∃ path d, st.cwd.length < pathMaxLenght ∧ sys.chdir st.cwd path = some d ∧ t = st.moved d st.cwd := by
  unfold changeDir at h
  split at h
  next => exact .inl ⟨_, (Outcome.ret.inj h).symm⟩
  split at h
  next => cases h
  next arg _ =>
    split at h
    next =>
      split at h
      next => exact .inl ⟨_, (Outcome.ret.inj h).symm⟩
      split at h
      next => exact .inl ⟨_, (Outcome.ret.inj h).symm⟩
      next newPath hcwd =>
        obtain ⟨hlen, rfl⟩ := getcwd_eq_some hcwd
        obtain ⟨lastPath, -, h⟩ := Outcome.bind_eq_ret.mp h
        split at h
        next => exact .inl ⟨_, (Outcome.ret.inj h).symm⟩
        next d hdir => exact .inr ⟨lastPath, d, hlen, hdir, (Outcome.ret.inj h).symm⟩
    next =>
      split at h
      next => exact .inl ⟨_, (Outcome.ret.inj h).symm⟩
      next newPath hcwd =>
        obtain ⟨hlen, rfl⟩ := getcwd_eq_some hcwd
        split at h
        next => exact .inl ⟨_, (Outcome.ret.inj h).symm⟩
        next d hdir => exact .inr ⟨arg, d, hlen, hdir, (Outcome.ret.inj h).symm⟩

theorem error_stderr_ne (st : Session) (msg : String) : (st.error msg).shell.stderr ≠ st.shell.stderr := by
  simp [Session.error, Shell.error]

theorem CdStep.moved (h : CdStep st l t) (hok : t.shell.stderr = st.shell.stderr) :
    ∃ d, st.cwd.length < pathMaxLenght ∧ '\x00' ∉ d ∧ t = st.moved d st.cwd := by
  rcases changeDir_cases h with ⟨msg, rfl⟩ | ⟨path, d, hlen, hdir, rfl⟩
  · exact absurd hok (error_stderr_ne st msg)
  · exact ⟨d, hlen, l.noNul _ _ _ hdir, rfl⟩

theorem leadsTo_back_iff {d : List Char} (hback : l.IsBack) (hlast : st.hasLastPath = true)
    (hdir : l.sys.chdir st.cwd d = some d) (hd : cString st.lastPath = .ret d ∨ cString st.lastPath = .ub) :
    LeadsTo st l d ↔ st.cwd.length < pathMaxLenght ∧ cString st.lastPath = .ret d := by
  obtain ⟨name, hargv⟩ := hback
  by_cases hcwd : st.cwd.length < pathMaxLenght
  · have hget : st.getcwd = some st.cwd := if_pos hcwd
    rcases hd with hd | hd
    · refine iff_of_true ⟨st.moved d st.cwd, ?_, rfl, rfl⟩ ⟨hcwd, hd⟩
      simp [CdStep, changeDir, hargv, hlast, hget, hd, hdir]
    · rw [hd]
      refine iff_of_false ?_ fun h => by cases h.2
      rintro ⟨t, ht, -⟩
      simp [CdStep, changeDir, hargv, hlast, hget, hd] at ht
  · have hget : st.getcwd = none := if_neg hcwd
    refine iff_of_false ?_ fun h => hcwd h.1
    rintro ⟨t, ht, hok, -⟩
    have herr : t = st.error "smash error: getcwd failed" := by
      simpa [CdStep, changeDir, hargv, hlast, hget, eq_comm] using ht
    rw [herr] at hok
    exact error_stderr_ne st _ hok

end Call

/-! ## Runs -/

/-- The last byte of the buffer is `b`, and the path of the current directory is a string. -/
structure Session.Kept (b : Char) (st : Session) : Prop where
  last : st.lastPath.drop (pathMaxLenght - 1) = [b]
  noNul : '\x00' ∉ st.cwd

section Runs

variable {b : Char} {st₀ st t u : Session} {l back back' : CdCall} {ls : List CdCall}

theorem Session.Started.kept (h : st₀.Started) :
    ∃ b, st₀.lastPath.getLast? = some b ∧ st₀.Kept b := by
  obtain ⟨pre, b, heq⟩ := List.eq_nil_or_concat' st₀.lastPath |>.resolve_left fun hnil => by
    have := h.size
    rw [hnil] at this
    cases this
  have hpre : pre.length = pathMaxLenght - 1 := by
    have := h.size
    rw [heq, List.length_append, List.length_singleton] at this
    omega
  refine ⟨b, by rw [heq, List.getLast?_concat], ?_, h.noNul⟩
  rw [heq, ← hpre, List.drop_left]

theorem Session.Kept.moved {d : List Char} (h : st.Kept b) (hd : '\x00' ∉ d) : (st.moved d st.cwd).Kept b where
  last := strncpy_drop.trans h.last
  noNul := hd

theorem Session.Kept.step (h : st.Kept b) (hl : CdStep st l t) : t.Kept b := by
  rcases changeDir_cases hl with ⟨msg, rfl⟩ | ⟨path, d, -, hdir, rfl⟩
  · exact ⟨h.last, h.noNul⟩
  · exact h.moved (l.noNul _ _ _ hdir)

theorem Session.Kept.cString_moved {d : List Char} (h : st.Kept b) (hlen : st.cwd.length < pathMaxLenght) :
    cString (st.moved d st.cwd).lastPath =
      if st.cwd.length + 1 = pathMaxLenght → b = '\x00' then .ret st.cwd else .ub := by
  show cString (strncpy st.lastPath st.cwd (pathMaxLenght - 1)) = _
  by_cases hfull : st.cwd.length + 1 = pathMaxLenght
  · rw [cString_strncpy_of_length_eq h.noNul (by omega) h.last]
    simp only [hfull, true_implies]
  · rw [cString_strncpy_of_lt h.noNul (by omega), if_pos fun heq => absurd heq hfull]

theorem Session.Kept.back_iff (h : st.Kept b) (hl : CdStep st l t) (hok : t.shell.stderr = st.shell.stderr)
    (hback : back.IsBack) (hdir : back.sys.chdir t.cwd st.cwd = some st.cwd) :
    LeadsTo t back st.cwd ↔
      t.cwd.length < pathMaxLenght ∧ (st.cwd.length + 1 = pathMaxLenght → b = '\x00') := by
  obtain ⟨d, hlen, -, rfl⟩ := hl.moved hok
  have hbuf := h.cString_moved (d := d) hlen
  by_cases hb : st.cwd.length + 1 = pathMaxLenght → b = '\x00'
  · rw [if_pos hb] at hbuf
    rw [leadsTo_back_iff hback rfl hdir (.inl hbuf), hbuf]
    exact and_congr_right fun _ => iff_of_true rfl hb
  · rw [if_neg hb] at hbuf
    rw [leadsTo_back_iff hback rfl hdir (.inr hbuf), hbuf]
    exact and_congr_right fun _ => iff_of_false nofun hb

/-- **Going back**, in every run. A `cd` that reports an error leaves the directory and the one before. After
one that succeeds, `cd -` leads back exactly if the path it comes from fits in the buffer, and the one it goes
to leaves room for a terminator or has found one. So it is with two `cd -` in a row. -/
theorem cd_back_iff (h₀ : st₀.Started) (hrun : Run CdStep st₀ ls st) (hl : CdStep st l t) :
    (t.shell.stderr ≠ st.shell.stderr →
      t.cwd = st.cwd ∧ t.lastPath = st.lastPath ∧ t.hasLastPath = st.hasLastPath) ∧
    (t.shell.stderr = st.shell.stderr → ∀ back : CdCall, back.IsBack →
      back.sys.chdir t.cwd st.cwd = some st.cwd →
      (LeadsTo t back st.cwd ↔ t.cwd.length < pathMaxLenght ∧
        (st.cwd.length + 1 = pathMaxLenght → st₀.lastPath.getLast? = some '\x00')) ∧
      ∀ back' : CdCall, back'.IsBack → back'.sys.chdir st.cwd t.cwd = some t.cwd →
        ((∃ u, CdStep t back u ∧ u.shell.stderr = t.shell.stderr ∧ u.cwd = st.cwd ∧ LeadsTo u back' t.cwd) ↔
          t.cwd.length < pathMaxLenght ∧ (st.cwd.length + 1 = pathMaxLenght ∨ t.cwd.length + 1 = pathMaxLenght →
            st₀.lastPath.getLast? = some '\x00'))) := by
  obtain ⟨b, hb, hkept₀⟩ := h₀.kept
  have hkept : st.Kept b := hrun.invariant hkept₀ fun _ _ _ => Session.Kept.step
  rw [hb, Option.some_inj]
  refine ⟨fun herr => ?_, fun hok back hback hdir => ?_⟩
  · rcases changeDir_cases hl with ⟨msg, rfl⟩ | ⟨path, d, -, -, rfl⟩
    · exact ⟨rfl, rfl, rfl⟩
    · exact absurd rfl herr
  · have hiff := hkept.back_iff hl hok hback hdir
    refine ⟨hiff, fun back' hback' hdir' => ?_⟩
    obtain ⟨-, hlen, -⟩ := hl.moved hok
    constructor
    · rintro ⟨u, hu, huok, hcwd, hlead⟩
      have hfirst := hiff.mp ⟨u, hu, huok, hcwd⟩
      have hsecond := ((hkept.step hl).back_iff hu huok hback' (hcwd ▸ hdir')).mp hlead
      exact ⟨hfirst.1, fun h => h.elim hfirst.2 hsecond.2⟩
    · rintro ⟨htlen, hbyte⟩
      obtain ⟨u, hu, huok, hcwd⟩ := hiff.mpr ⟨htlen, fun h => hbyte (.inl h)⟩
      refine ⟨u, hu, huok, hcwd, ?_⟩
      exact ((hkept.step hl).back_iff hu huok hback' (hcwd ▸ hdir')).mpr ⟨hcwd ▸ hlen, fun h => hbyte (.inr h)⟩

end Runs

/-- `cd path`, where every absolute path is a directory. -/
def cdCall (path : List Char) : CdCall where
  sys := { freshSys with chdir := fun _ path => if path.head? = some '/' ∧ '\x00' ∉ path then some path else none }
  cmd := ⟨.cd, ["cd".toList, path], false, "cd ".toList ++ path⟩
  noNul := by
    intro _ path d h
    obtain ⟨⟨-, hpath⟩, rfl⟩ : (path.head? = some '/' ∧ '\x00' ∉ path) ∧ path = d := by simpa using h
    exact hpath

theorem freshSession_started : freshSession.Started where
  size := List.length_replicate
  unset := rfl
  noNul := by decide

/-- `cd /tmp` and `cd -`. -/
theorem cd_back_iff_tmp : LeadsTo (freshSession.moved "/tmp".toList "/".toList) (cdCall "-".toList) "/".toList :=
  (((cd_back_iff (l := cdCall "/tmp".toList) freshSession_started (.nil _) rfl).2 rfl _ ⟨_, rfl⟩ rfl).1).mpr
    ⟨by decide, by decide⟩

/-- No way back from a directory whose path has 101 characters. -/
theorem no_way_back : ¬ ∀ (st₀ st t : Session) (ls : List CdCall) (l back : CdCall), st₀.Started →
    Run CdStep st₀ ls st → CdStep st l t → t.shell.stderr = st.shell.stderr → back.IsBack →
    back.sys.chdir t.cwd st.cwd = some st.cwd → LeadsTo t back st.cwd := by
  intro h
  obtain ⟨u, hu, hok, -⟩ := h freshSession freshSession (freshSession.moved ('/' :: List.replicate 100 'a') "/".toList)
    [] (cdCall ('/' :: List.replicate 100 'a')) (cdCall "-".toList) freshSession_started (.nil _) rfl rfl ⟨_, rfl⟩ rfl
  cases hu
  exact error_stderr_ne _ _ hok

end OsHomework.Smash
