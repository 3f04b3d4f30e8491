import OsHomework.Server.Replies

/-!
# The buffers of the request handler

Which request lines are handled within the buffers.

* `FitsFor line`: whatever the system, the client and the uninitialised arrays do, every string that is written
  fits, and no index is negative;
* `LineFits line`: the same as a bound on the words of the line;
* **`buffers_fit_iff`**: these are the same; `buffers_overflow`: not every line fits.
-/

set_option autoImplicit false

namespace OsHomework.Server

open Logged

/-! ## The functions that respond -/

section Within

variable {stats : Stats} {arrivalTime dispatchInterval : ℚ} {sink : Sink} {os : Os}

theorem within_requestError {cause errnum shortmsg longmsg : List Char} (h : InRange stats arrivalTime dispatchInterval)
    (hshort : errnum.length + shortmsg.length ≤ 100) :
    Within Event.InBounds (requestError sink cause errnum shortmsg longmsg stats arrivalTime dispatchInterval) ↔
      ErrorFits cause errnum shortmsg longmsg := by
  constructor
  · intro hw
    by_contra hfit
    exact (requestError_overflow hfit).2 hw
  · exact fun hfit => (requestError_sends h hshort hfit).within

theorem errorFits_iff {cause errnum shortmsg longmsg : List Char} : ErrorFits cause errnum shortmsg longmsg ↔
    89 + (cause.length + errnum.length + shortmsg.length + longmsg.length) < maxBuf := by
  rw [ErrorFits, length_errorBody]

theorem natAbs_of_increment {x y : ℤ} (hx : x.natAbs ≤ 2 ^ 31) (h : increment x = .ret y) : y.natAbs ≤ 2 ^ 31 := by
  unfold increment at h
  split_ifs at h with hlt
  obtain rfl := Outcome.ret.inj h
  unfold intMax at hlt
  omega

theorem natAbs_toInt (x : ℤ) : (toInt x).natAbs ≤ 2 ^ 31 := by
  have h₁ := Int.bmod_lt (x := x) (m := 2 ^ 32) (by norm_num)
  have h₂ := Int.le_bmod (x := x) (m := 2 ^ 32) (by norm_num)
  unfold toInt
  omega

theorem within_error_bind {cause errnum shortmsg longmsg : List Char} (h : InRange stats arrivalTime dispatchInterval)
    (hshort : errnum.length + shortmsg.length ≤ 100) :
    Within Event.InBounds (do
      let _ ← requestError sink cause errnum shortmsg longmsg stats arrivalTime dispatchInterval
      pure stats) ↔ 89 + (cause.length + errnum.length + shortmsg.length + longmsg.length) < maxBuf := by
  rw [within_bind_iff, within_requestError h hshort, errorFits_iff]
  exact and_iff_left fun _ _ => Within.pure _

theorem within_error_ite {p : Prop} [Decidable p] {rest : Logged Event Stats}
    {cause errnum shortmsg longmsg : List Char} (h : InRange stats arrivalTime dispatchInterval)
    (hshort : errnum.length + shortmsg.length ≤ 100) (hrest : Within Event.InBounds rest) :
    Within Event.InBounds (if p then do
        let _ ← requestError sink cause errnum shortmsg longmsg stats arrivalTime dispatchInterval
        pure stats
      else rest) ↔ (p → 89 + (cause.length + errnum.length + shortmsg.length + longmsg.length) < maxBuf) := by
  split_ifs with hp
  · rw [within_error_bind h hshort, forall_prop_of_true hp]
  · exact iff_of_true hrest fun h => absurd h hp

/-- **From the `stat` on**, what fits depends on the length of the file name and on what `stat` says. -/
theorem within_serveFile {static : Bool} {filename cgiargs : List Char}
    (h : InRange stats arrivalTime dispatchInterval) :
    Within Event.InBounds (serveFile os sink static filename cgiargs stats arrivalTime dispatchInterval) ↔
      match os.stat filename with
      | none => filename.length ≤ 8052
      | some sbuf => if static then ¬ sbuf.isReg ∨ ¬ sbuf.irusr → filename.length ≤ 8052
        else ¬ sbuf.isReg ∨ ¬ sbuf.ixusr → filename.length ≤ 8046 := by
  unfold serveFile
  cases os.stat filename with
  | none =>
    dsimp only
    rw [within_error_bind h (by decide)]
    simp [maxBuf]
    omega
  | some sbuf =>
    dsimp only
    cases static with
    | true =>
      simp only [if_true]
      refine (within_error_ite h (by decide) (Within.bind (Within.lift _) fun count hc => ?_)).trans
        (imp_congr_right fun _ => by simp [maxBuf]; omega)
      have hstatic := natAbs_of_increment h.staticReqCount hc
      exact Within.bind (within_serveStatic { h with staticReqCount := hstatic } (natAbs_toInt _)) fun _ _ =>
        Within.pure _
    | false =>
      simp only [Bool.false_eq_true, if_false]
      refine (within_error_ite h (by decide) (Within.bind (Within.lift _) fun count hc => ?_)).trans
        (imp_congr_right fun _ => by simp [maxBuf]; omega)
      have hdynamic := natAbs_of_increment h.dynamicReqCount hc
      exact Within.bind (within_serveDynamic { h with dynamicReqCount := hdynamic }) fun _ _ => Within.pure _

/-! ## The request line -/

theorem scan_spec (word : Option (List Char)) (array : List Char) :
    Defined (scan word array) (∀ w ∈ word, w.length < maxLine) (word.getD (cstr array)) := by
  cases word with
  | none => exact (Defined.pure _).congr (iff_of_true trivial fun w hw => by cases hw)
  | some w => exact (Defined.put maxLine w).congr (by simp)

theorem length_of_mem_splitOnP {p : Char → Bool} {s w : List Char} (h : w ∈ s.splitOnP p) : w.length ≤ s.length := by
  induction s generalizing w with
  | nil =>
    obtain rfl : w = [] := by simpa using h
    exact le_rfl
  | cons c s ih =>
    rw [List.splitOnP_cons_eq_if_modifyHead] at h
    split_ifs at h
    · rcases List.mem_cons.mp h with rfl | h
      · exact Nat.zero_le _
      · exact (ih h).trans (Nat.le_succ _)
    · obtain ⟨v, vs, hv⟩ := List.exists_cons_of_ne_nil (List.splitOnP_ne_nil p s)
      rw [hv, List.modifyHead_cons] at h
      rcases List.mem_cons.mp h with rfl | h
      · rw [List.length_cons, List.length_cons]
        exact Nat.succ_le_succ (ih (by rw [hv]; exact List.mem_cons_self))
      · exact (ih (by rw [hv]; exact List.mem_cons_of_mem _ h)).trans (Nat.le_succ _)

theorem length_word {s w : List Char} (h : w ∈ words s) : w.length ≤ s.length :=
  length_of_mem_splitOnP (List.mem_of_mem_filter h)

theorem ne_nil_of_mem_words {s w : List Char} (h : w ∈ words s) : w ≠ [] := by
  simpa using (List.mem_filter.mp h).2

theorem length_cstr_le (s : List Char) : (cstr s).length ≤ s.length := (List.takeWhile_prefix _).length_le

/-- The method and the uri: a missing word leaves the array as it is. -/
def methodOf (stack : Stack) (buf : List Char) : List Char := (words buf)[0]?.getD (cstr stack.method)

def uriOf (stack : Stack) (buf : List Char) : List Char := (words buf)[1]?.getD (cstr stack.uri)

theorem within_handleLine {stack : Stack} {fuel : ℕ} {rio : Rio} {buf : List Char}
    (h : InRange stats arrivalTime dispatchInterval) (hbuf : ∀ w ∈ words buf, w.length < maxLine) :
    Within Event.InBounds (handleLine os stack fuel sink rio buf stats arrivalTime dispatchInterval) ↔
      if (methodOf stack buf).map Char.toLower ≠ "get".toList then (methodOf stack buf).length ≤ 8040
      else ∀ rio', requestReadhdrs fuel rio stack.hdr = .ret rio' →
        Within Event.InBounds (requestParseURI maxLine (uriOf stack buf) (cstr stack.cgiargs)) ∧
          ∀ p, (requestParseURI maxLine (uriOf stack buf) (cstr stack.cgiargs)).out = .ret p →
            Within Event.InBounds (serveFile os sink p.1 p.2.1 p.2.2 stats arrivalTime dispatchInterval) := by
  have hword : ∀ (i : ℕ), ∀ w ∈ (words buf)[i]?, w.length < maxLine :=
    fun i w hw => hbuf w (List.mem_of_getElem? hw)
  obtain ⟨ho₀, hw₀⟩ := (scan_spec _ stack.method).ret (hword 0)
  obtain ⟨ho₁, hw₁⟩ := (scan_spec _ stack.uri).ret (hword 1)
  obtain ⟨ho₂, hw₂⟩ := (scan_spec _ stack.version).ret (hword 2)
  unfold handleLine
  rw [within_bind_iff, and_iff_right hw₀, ho₀, ← methodOf]
  simp only [Outcome.ret.injEq, forall_eq']
  rw [within_bind_iff, and_iff_right hw₁, ho₁, ← uriOf]
  simp only [Outcome.ret.injEq, forall_eq']
  rw [within_bind_iff, and_iff_right hw₂, ho₂]
  simp only [Outcome.ret.injEq, forall_eq']
  split_ifs with hget
  · rw [within_error_bind h (by decide)]
    simp [maxBuf]
    omega
  · rw [within_bind_iff, and_iff_right (Within.lift _)]
    refine forall_congr' fun rio' => imp_congr Iff.rfl ?_
    rw [within_bind_iff]

end Within

/-! ## All request lines -/

/-- The connection delivers `line` as its first line. -/
def Delivered (conn : Conn) (line : List Char) : Prop :=
  (rioReadinitb conn).stream ≠ [] ∧ (rioReadinitb conn).Delivers ∧ (rioReadinitb conn).line = line

/-- However the line `line` comes to be handled, everything that is written fits. -/
def FitsFor (line : List Char) : Prop :=
  ∀ os stack fuel conn stats arrivalTime dispatchInterval, InRange stats arrivalTime dispatchInterval →
    Delivered conn line →
      Within Event.InBounds (requestHandle os stack fuel conn stats arrivalTime dispatchInterval)

/-- The method is there, and if it is `GET` the uri is too; the word from which a response is made is not too
long. -/
def LineFits (line : List Char) : Prop :=
  match words (cstr line) with
  | [] => False
  | method :: rest =>
    if method.map Char.toLower ≠ "get".toList then method.length ≤ 8040
    else
      match rest with
      | [] => False
      | uri :: _ => (fileOf uri).length ≤ if isStatic uri then 8052 else 8046

section Lines

variable {line : List Char} {conn : Conn}

theorem Delivered.readlineb (h : Delivered conn line) (usrbuf : List Char) : ∃ rio,
    OsHomework.Server.readlineb (rioReadinitb conn) usrbuf maxLine = .ret (rio, line) ∧
      rio.stream = (rioReadinitb conn).rest ∧ rio.ending = conn.ending := by
  obtain ⟨hne, hd, rfl⟩ := h
  obtain ⟨rio, hr, hs, he⟩ := readlineb_ret usrbuf hd
  rw [if_neg hne] at hr
  exact ⟨rio, hr, hs, he⟩

theorem Delivered.length_lt (h : Delivered conn line) : line.length < maxLine := by
  have := length_cutLine_le '\n' (maxLine - 1) (rioReadinitb conn).stream
  rw [← Rio.line, h.2.2] at this
  unfold maxLine at this ⊢
  omega

theorem Delivered.words_lt (h : Delivered conn line) : ∀ w ∈ words (cstr line), w.length < maxLine :=
  fun _ hw => ((length_word hw).trans (length_cstr_le line)).trans_lt h.length_lt

/-- The sufficient direction. -/
theorem LineFits.fitsFor (h : LineFits line) : FitsFor line := by
  intro os stack fuel conn stats arrivalTime dispatchInterval hr hd
  obtain ⟨rio, hline, -, -⟩ := hd.readlineb stack.buf
  refine Within.bind (Within.lift _) fun count hc => ?_
  have hcount := natAbs_of_increment hr.reqCount hc
  have hr' : InRange { stats with handlerThreadReqCount := count } arrivalTime dispatchInterval :=
    { hr with reqCount := hcount }
  unfold answer
  rw [hline, lift_ret_bind]
  refine (within_handleLine hr' hd.words_lt).mpr ?_
  have hlt := hd.words_lt
  unfold LineFits at h
  unfold methodOf uriOf
  match hw : words (cstr line), h with
  | method :: rest, h =>
    dsimp only at h
    rw [List.getElem?_cons_zero, Option.getD_some]
    split_ifs at h ⊢ with hget
    · exact h
    · match rest, h with
      | uri :: _, h =>
        dsimp only at h
        have hfile : (fileOf uri).length ≤ 8052 := h.trans (by split_ifs <;> omega)
        have hlen : uri.length < maxLine := hlt uri (by rw [hw]; simp)
        intro rio' _
        rw [List.getElem?_cons_succ, List.getElem?_cons_zero, Option.getD_some]
        have hfit : uri ≠ [] ∧ (fileOf uri).length < maxLine :=
          ⟨ne_nil_of_mem_words (by rw [hw]; simp), hfile.trans_lt (by decide)⟩
        obtain ⟨ho, hin⟩ := (requestParseURI_spec maxLine uri (cstr stack.cgiargs)).ret ((parseFits_iff hlen).mpr hfit)
        refine ⟨hin, fun p hp => ?_⟩
        obtain rfl := Outcome.ret.inj (ho.symm.trans hp)
        refine (within_serveFile hr').mpr ?_
        dsimp only
        cases os.stat (fileOf uri) with
        | none => exact hfile
        | some sbuf =>
          cases hs : isStatic uri with
          | true => exact fun _ => hfile
          | false =>
            rw [hs] at h
            exact fun _ => h

/-! ### The other direction -/

/-- Nothing is there. -/
def noFiles : Os where
  stat := fun _ => none
  openFile := fun _ => false
  mmap := fun _ _ => none
  closeFile := fun _ => false
  munmap := fun _ _ => false
  fork := false
  waitpid := false

/-- There is something that may not be run. -/
def notAllowed : Os := { noFiles with stat := fun _ => some ⟨false, false, false, 0⟩ }

/-- Arrays with an empty line for the headers. -/
def stackOf (method : List Char) : Stack := ⟨[], method, [], [], [], crlf⟩

def noStats : Stats := ⟨0, 0, 0, 0⟩

theorem inRange_noStats : InRange { noStats with handlerThreadReqCount := 1 } 0 0 := by
  constructor <;> norm_num [noStats]

/-- A line that can be delivered can be delivered in one piece, with nothing after it. -/
theorem Delivered.alone (h : Delivered conn line) : ∃ conn', Delivered conn' line ∧ (rioReadinitb conn').rest = [] ∧
    conn'.ending = .eof := by
  have hne : line ≠ [] := by
    rw [← h.2.2]
    exact line_ne_nil h.1
  have hlen : line.length ≤ rioBufSize := h.length_lt.le
  have hcut : cutLine '\n' (maxLine - 1) line = (line, []) := by
    rw [← h.2.2]
    exact cutLine_line _ _ _
  have hstream : (rioReadinitb ⟨[some ⟨line, hne, hlen⟩], .eof, ⟨[], none⟩⟩).stream = line := by
    simp [rioReadinitb, Rio.stream]
  refine ⟨⟨[some ⟨line, hne, hlen⟩], .eof, ⟨[], none⟩⟩, ⟨?_, .inl rfl, ?_⟩, ?_, rfl⟩
  · rw [hstream]
    exact hne
  · rw [Rio.line, hstream, hcut]
  · rw [Rio.rest, hstream, hcut]

theorem letters_ne_get {k : ℕ} (hk : k ≠ 3) : (List.replicate k 'A').map Char.toLower ≠ "get".toList := by
  intro he
  have := congrArg List.length he
  rw [List.length_map, List.length_replicate] at this
  exact hk this

theorem FitsFor.handleLine (h : FitsFor line) (hd : ∃ conn, Delivered conn line) (os : Os) (method : List Char) :
    if (methodOf (stackOf method) (cstr line)).map Char.toLower ≠ "get".toList then
      (methodOf (stackOf method) (cstr line)).length ≤ 8040
    else
      Within Event.InBounds (requestParseURI maxLine (uriOf (stackOf method) (cstr line)) []) ∧
        ∀ p, (requestParseURI maxLine (uriOf (stackOf method) (cstr line)) []).out = .ret p →
          ∃ sink stats, InRange stats 0 0 ∧ Within Event.InBounds (serveFile os sink p.1 p.2.1 p.2.2 stats 0 0) := by
  obtain ⟨conn, hd⟩ := hd
  obtain ⟨conn', hd', hrest, hend⟩ := hd.alone
  obtain ⟨rio, hline, hs, he⟩ := hd'.readlineb (stackOf method).buf
  obtain ⟨rio', N, hN⟩ := (headersEnd_iff rio (stackOf method).hdr).mpr (.inr ⟨hs.trans hrest, he.trans hend, rfl⟩)
  have hw := h os (stackOf method) N conn' noStats 0 0 (by constructor <;> norm_num [noStats]) hd'
  have hcount : increment noStats.handlerThreadReqCount = .ret 1 := by decide
  rw [requestHandle, hcount, lift_ret_bind, answer, hline, lift_ret_bind] at hw
  have hw' := (within_handleLine inRange_noStats hd'.words_lt).mp hw
  split_ifs at hw' ⊢ with hget
  · exact hw'
  · obtain ⟨hparse, hserve⟩ := hw' rio' (hN N le_rfl)
    exact ⟨hparse, fun p hp => ⟨_, _, inRange_noStats, hserve p hp⟩⟩

/-- The necessary direction. -/
theorem FitsFor.lineFits (h : FitsFor line) (hd : ∃ conn, Delivered conn line) : LineFits line := by
  unfold LineFits
  match hw : words (cstr line) with
  | [] =>
    -- the method may be anything
    obtain ⟨k, hk⟩ : ∃ k, k = 8041 := ⟨_, rfl⟩
    have hm := h.handleLine hd noFiles (List.replicate k 'A')
    have hmethod : methodOf (stackOf (List.replicate k 'A')) (cstr line) = List.replicate k 'A' := by
      simp only [methodOf, hw, List.getElem?_nil, Option.getD_none, stackOf]
      exact takeWhile_of_notMem fun hmem => absurd (List.eq_of_mem_replicate hmem) (by decide)
    rw [hmethod, if_pos (letters_ne_get (by omega)), List.length_replicate] at hm
    omega
  | method :: rest =>
    have hm := fun os => h.handleLine hd os []
    simp only [methodOf, uriOf, hw, List.getElem?_cons_zero, Option.getD_some] at hm
    dsimp only
    split_ifs at hm ⊢ with hget
    · exact hm noFiles
    · match rest, hw with
      | [], hw =>
        -- there is no uri, and the array may be empty
        have huri : [method][1]?.getD (cstr (stackOf []).uri) = [] := rfl
        rw [huri] at hm
        exact absurd rfl ((requestParseURI_spec maxLine [] []).within.mp (hm noFiles).1).1
      | uri :: _, hw =>
        simp only [List.getElem?_cons_succ, List.getElem?_cons_zero, Option.getD_some] at hm
        have hspec := requestParseURI_spec maxLine uri []
        have hserve := fun os => (hm os).2 _ (hspec.ret (hspec.within.mp (hm noFiles).1)).1
        dsimp only
        split_ifs with hs
        · obtain ⟨sink, stats, hr, hin⟩ := hserve noFiles
          exact (within_serveFile hr).mp hin
        · obtain ⟨sink, stats, hr, hin⟩ := hserve notAllowed
          have hfile := (within_serveFile hr).mp hin
          simp only [notAllowed, hs, Bool.false_eq_true, if_false] at hfile
          exact hfile (.inl (by simp))

end Lines

/-- **When everything fits.** For every request line that can be delivered: whatever the system, the client and
the uninitialised arrays do, all that is written fits and no index is negative, if and only if the line has
a method, and the method (if it is not `GET`) or the name of the file is not too long for the body of an
error message. -/
theorem buffers_fit_iff {line : List Char} (hd : ∃ conn, Delivered conn line) : FitsFor line ↔ LineFits line :=
  ⟨fun h => h.lineFits hd, fun h => h.fitsFor⟩

theorem delivered_of_line {l : List Char} (hlen : l.length + 1 < maxLine) (hl : '\n' ∉ l) :
    ∃ conn, Delivered conn (l ++ ['\n']) := by
  have hne : l ++ ['\n'] ≠ [] := by simp
  have hsize : (l ++ ['\n']).length ≤ rioBufSize := by
    rw [List.length_append]
    exact hlen.le
  have hcut : cutLine '\n' (maxLine - 1) (l ++ ['\n']) = (l ++ ['\n'], []) := by
    have hle : (l ++ ['\n']).length ≤ maxLine - 1 := by
      rw [List.length_append]
      exact Nat.le_sub_one_of_lt hlen
    have h : cutLine '\n' (maxLine - 1) (l ++ ['\n'] ++ []) = (l ++ ['\n'], []) :=
      cutLine_of_complete hle (.inl List.getLast?_concat) (by rwa [List.dropLast_concat])
    rwa [List.append_nil] at h
  have hstream : (rioReadinitb ⟨[some ⟨_, hne, hsize⟩], .eof, ⟨[], none⟩⟩).stream = l ++ ['\n'] := by
    simp [rioReadinitb, Rio.stream]
  exact ⟨_, by rw [hstream]; exact hne, .inl rfl, by rw [Rio.line, hstream, hcut]⟩

/-- `GET /`. -/
theorem buffers_fit_iff_root : FitsFor ("GET / HTTP/1.0\r".toList ++ ['\n']) := by
  apply (buffers_fit_iff (delivered_of_line (by decide) (by decide))).mpr
  have hwords : words (cstr ("GET / HTTP/1.0\r".toList ++ ['\n'])) =
      ["GET".toList, "/".toList, "HTTP/1.0".toList] := by decide
  rw [LineFits, hwords]
  dsimp only
  rw [if_neg (by decide)]
  have := length_fileOf_le "/".toList
  have hone : "/".toList.length = 1 := by decide
  split_ifs <;> omega

/-- **A line of letters** as long as a line may be overflows the body of the error message. -/
theorem buffers_overflow : ¬ ∀ line, (∃ conn, Delivered conn line) → FitsFor line := by
  intro hall
  obtain ⟨k, hk⟩ : ∃ k, k = 8190 := ⟨_, rfl⟩
  have hletters : ∀ c, c ≠ 'A' → c ∉ List.replicate k 'A' := fun c hc h => hc (List.eq_of_mem_replicate h)
  have hd : ∃ conn, Delivered conn (List.replicate k 'A' ++ ['\n']) := by
    apply delivered_of_line
    · rw [List.length_replicate, hk]
      decide
    · exact hletters _ (by decide)
  have hne : List.replicate k 'A' ≠ [] := by
    rw [hk]
    exact List.cons_ne_nil _ _
  have hnul : '\x00' ∉ List.replicate k 'A' ++ ['\n'] := by
    rw [List.mem_append]
    rintro (h | h)
    · exact hletters _ (by decide) h
    · exact absurd h (by decide)
  have hspace : ∀ c ∈ List.replicate k 'A', isSpace c = false := by
    intro c hc
    rw [List.eq_of_mem_replicate hc]
    decide
  have hwords : words (cstr (List.replicate k 'A' ++ ['\n'])) = [List.replicate k 'A'] := by
    have hsplit := List.splitOnP_append_cons_of_forall_mem hspace '\n' (by decide) []
    rw [cstr, takeWhile_of_notMem hnul, words, hsplit]
    simp [hne]
  have hfit := (hall _ hd).lineFits hd
  rw [LineFits, hwords] at hfit
  dsimp only at hfit
  rw [if_pos (letters_ne_get (by omega)), List.length_replicate] at hfit
  omega

end OsHomework.Server
