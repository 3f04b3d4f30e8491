import OsHomework.Server.Buffers

/-!
# When a request is survived

`requestHandle` ends by returning only if nothing goes wrong on its way: the wrappers end the whole process.

* `ErrorTaken`, `FileTaken`, `ProgramTaken`: a response that fits and that the client takes as a whole;
* `Answered`: what has to hold of the connection, the files and the uninitialised arrays;
* **`returns_iff_answered`**: exactly then the call returns; `reset_ends_server`.
-/

set_option autoImplicit false

namespace OsHomework.Server

open Logged

section Taken

variable (os : Os) (sink : Sink) (stats : Stats) (arrivalTime dispatchInterval : ℚ)

/-- The body of the error message fits, and the client takes the response. -/
def ErrorTaken (cause errnum shortmsg longmsg : List Char) : Prop :=
  ErrorFits cause errnum shortmsg longmsg ∧
    sink.Takes (errorText cause errnum shortmsg longmsg stats arrivalTime dispatchInterval).length

/-- The file can be mapped, and the client takes the response. -/
def FileTaken (filename : List Char) (filesize : ℤ) : Prop :=
  os.openFile filename ∧ (os.mmap filename (toSize filesize)).isSome ∧ os.closeFile filename ∧
    sink.Takes ((staticHeader filename filesize stats arrivalTime dispatchInterval).flatten.length +
      toSize filesize) ∧ os.munmap filename (toSize filesize)

/-- The client takes the lines before the output of the program, which is run and waited for. -/
def ProgramTaken : Prop :=
  sink.Takes (dynamicHeader stats arrivalTime dispatchInterval).flatten.length ∧ os.fork ∧ os.waitpid

/-- The response to a request for `filename`. -/
def FileAnswered (static : Bool) (filename : List Char) : Prop :=
  match os.stat filename with
  | none => ErrorTaken sink stats arrivalTime dispatchInterval filename "404".toList "Not found".toList
      "OS-HW3 Server could not find this file".toList
  | some sbuf =>
    if static then
      if ¬ sbuf.isReg ∨ ¬ sbuf.irusr then
        ErrorTaken sink stats arrivalTime dispatchInterval filename "403".toList "Forbidden".toList
          "OS-HW3 Server could not read this file".toList
      else
        stats.handlerThreadStaticReqCount < intMax ∧
          FileTaken os sink
            { stats with handlerThreadStaticReqCount := stats.handlerThreadStaticReqCount + 1 }
            arrivalTime dispatchInterval filename (toInt sbuf.stSize)
    else
      if ¬ sbuf.isReg ∨ ¬ sbuf.ixusr then
        ErrorTaken sink stats arrivalTime dispatchInterval filename "403".toList "Forbidden".toList
          "OS-HW3 Server could not run this CGI program".toList
      else
        stats.handlerThreadDynamicReqCount < intMax ∧
          ProgramTaken os sink
            { stats with handlerThreadDynamicReqCount := stats.handlerThreadDynamicReqCount + 1 }
            arrivalTime dispatchInterval

/-- The response to the request line `buf`, where `rest` is what the client sends after it. -/
def LineAnswered (stack : Stack) (rest : List Char) (ending : ReadEnd) (buf : List Char) : Prop :=
  (∀ w ∈ (words buf).take 3, w.length < maxLine) ∧
  if (methodOf stack buf).map Char.toLower ≠ "get".toList then
    ErrorTaken sink stats arrivalTime dispatchInterval (methodOf stack buf) "501".toList "Not Implemented".toList
      "OS-HW3 Server does not implement this method".toList
  else
    -- an empty line ends the headers
    (IsLineOf '\n' (maxLine - 1) crlf rest ∨ rest = [] ∧ ending = .eof ∧ cstr stack.hdr = crlf) ∧
      ParseFits maxLine (uriOf stack buf) ∧
      FileAnswered os sink stats arrivalTime dispatchInterval (isStatic (uriOf stack buf)) (fileOf (uriOf stack buf))

/-- The request line comes before the reads fail, if they do, and it gets a response. If the client sends
nothing at all, the array is used as it is. -/
def Answered (stack : Stack) (conn : Conn) : Prop :=
  stats.handlerThreadReqCount < intMax ∧
  (rioReadinitb conn).Delivers ∧
  LineAnswered os conn.sink { stats with handlerThreadReqCount := stats.handlerThreadReqCount + 1 }
    arrivalTime dispatchInterval stack (rioReadinitb conn).rest conn.ending
    (cstr (if (rioReadinitb conn).stream = [] then stack.buf else (rioReadinitb conn).line))

end Taken

section Returns

variable {os : Os} {sink : Sink} {stats : Stats} {arrivalTime dispatchInterval : ℚ}

theorem exists_then_stats {x : Logged Event Sink} :
    (∃ s, (x >>= fun _ => pure stats).out = .ret s) ↔ ∃ sink', x.out = .ret sink' := by
  constructor
  · rintro ⟨s, hs⟩
    obtain ⟨sink', ho, -⟩ := Outcome.bind_eq_ret.mp hs
    exact ⟨sink', ho⟩
  · rintro ⟨sink', ho⟩
    exact ⟨stats, by rw [out_bind, ho]; rfl⟩

theorem exists_increment {c : ℤ} {f : ℤ → Logged Event Stats} :
    (∃ s, (Logged.lift (increment c) >>= f).out = .ret s) ↔ c < intMax ∧ ∃ s, (f (c + 1)).out = .ret s := by
  constructor
  · rintro ⟨s, hs⟩
    obtain ⟨y, hy, hf⟩ := Outcome.bind_eq_ret.mp hs
    obtain ⟨hlt, rfl⟩ := increment_iff.mp hy
    exact ⟨hlt, s, hf⟩
  · rintro ⟨hlt, s, hs⟩
    exact ⟨s, by rw [out_bind, out_lift, increment_of_lt hlt]; exact hs⟩

theorem error_iff {cause errnum shortmsg longmsg : List Char} (h : InRange stats arrivalTime dispatchInterval)
    (hshort : errnum.length + shortmsg.length ≤ 100) :
    (∃ s, (do
      let _ ← requestError sink cause errnum shortmsg longmsg stats arrivalTime dispatchInterval
      pure stats : Logged Event Stats).out = .ret s) ↔
      ErrorTaken sink stats arrivalTime dispatchInterval cause errnum shortmsg longmsg := by
  rw [exists_then_stats, requestError_iff h hshort]
  rfl

theorem natAbs_succ {c : ℤ} (h : c.natAbs ≤ 2 ^ 31) (hlt : c < intMax) : (c + 1).natAbs ≤ 2 ^ 31 :=
  natAbs_of_increment h (increment_of_lt hlt)

/-- **From the `stat` on.** -/
theorem serveFile_iff {static : Bool} {filename cgiargs : List Char} (h : InRange stats arrivalTime dispatchInterval) :
    (∃ s, (serveFile os sink static filename cgiargs stats arrivalTime dispatchInterval).out = .ret s) ↔
      FileAnswered os sink stats arrivalTime dispatchInterval static filename := by
  unfold serveFile FileAnswered
  cases os.stat filename with
  | none => exact error_iff h (by decide)
  | some sbuf =>
    dsimp only
    cases static with
    | true =>
      simp only [if_true]
      split_ifs
      · exact error_iff h (by decide)
      · rw [exists_increment]
        refine and_congr_right fun hlt => ?_
        have hr : InRange { stats with handlerThreadStaticReqCount := stats.handlerThreadStaticReqCount + 1 }
            arrivalTime dispatchInterval := { h with staticReqCount := natAbs_succ h.staticReqCount hlt }
        rw [exists_then_stats, serveStatic_iff hr (natAbs_toInt _)]
        rfl
    | false =>
      simp only [Bool.false_eq_true, if_false]
      split_ifs
      · exact error_iff h (by decide)
      · rw [exists_increment]
        refine and_congr_right fun hlt => ?_
        have hr : InRange { stats with handlerThreadDynamicReqCount := stats.handlerThreadDynamicReqCount + 1 }
            arrivalTime dispatchInterval := { h with dynamicReqCount := natAbs_succ h.dynamicReqCount hlt }
        rw [exists_then_stats, serveDynamic_iff hr]
        rfl

/-! ## The request line -/

variable {stack : Stack} {rio : Rio} {buf : List Char}

theorem forall_take_three {ws : List (List Char)} {P : List Char → Prop} :
    (∀ w ∈ ws.take 3, P w) ↔ (∀ w ∈ ws[0]?, P w) ∧ (∀ w ∈ ws[1]?, P w) ∧ ∀ w ∈ ws[2]?, P w := by
  match ws with
  | [] => simp
  | [a] => simp
  | [a, b] => simp
  | a :: b :: c :: _ => simp

theorem handleLine_out (hwords : ∀ w ∈ (words buf).take 3, w.length < maxLine) (fuel : ℕ) :
    (handleLine os stack fuel sink rio buf stats arrivalTime dispatchInterval).out =
      if (methodOf stack buf).map Char.toLower ≠ "get".toList then
        (do
          let _ ← requestError sink (methodOf stack buf) "501".toList "Not Implemented".toList
            "OS-HW3 Server does not implement this method".toList stats arrivalTime dispatchInterval
          pure stats : Logged Event Stats).out
      else requestReadhdrs fuel rio stack.hdr >>= fun _ =>
        (requestParseURI maxLine (uriOf stack buf) (cstr stack.cgiargs)).out >>= fun p =>
          (serveFile os sink p.1 p.2.1 p.2.2 stats arrivalTime dispatchInterval).out := by
  obtain ⟨h₀, h₁, h₂⟩ := forall_take_three.mp hwords
  unfold handleLine
  rw [out_bind, ((scan_spec _ stack.method).ret h₀).1, Outcome.ret_bind, out_bind,
    ((scan_spec _ stack.uri).ret h₁).1, Outcome.ret_bind, out_bind, ((scan_spec _ stack.version).ret h₂).1,
    Outcome.ret_bind, out_ite]
  rfl

theorem handleLine_ub (hwords : ¬ ∀ w ∈ (words buf).take 3, w.length < maxLine) (fuel : ℕ) :
    (handleLine os stack fuel sink rio buf stats arrivalTime dispatchInterval).out = .ub := by
  rw [forall_take_three] at hwords
  unfold handleLine
  by_cases h₀ : ∀ w ∈ (words buf)[0]?, w.length < maxLine
  · rw [out_bind, ((scan_spec _ stack.method).ret h₀).1, Outcome.ret_bind, out_bind]
    by_cases h₁ : ∀ w ∈ (words buf)[1]?, w.length < maxLine
    · rw [((scan_spec _ stack.uri).ret h₁).1, Outcome.ret_bind, out_bind,
        ((scan_spec _ stack.version).ub fun h₂ => hwords ⟨h₀, h₁, h₂⟩).1]
      rfl
    · rw [((scan_spec _ stack.uri).ub h₁).1]
      rfl
  · rw [out_bind, ((scan_spec _ stack.method).ub h₀).1]
    rfl

/-- **From the `sscanf` on.** -/
theorem handleLine_iff (h : InRange stats arrivalTime dispatchInterval) :
    (∃ s, Returns (fun fuel => (handleLine os stack fuel sink rio buf stats arrivalTime dispatchInterval).out) s) ↔
      LineAnswered os sink stats arrivalTime dispatchInterval stack rio.stream rio.ending buf := by
  unfold LineAnswered
  by_cases hwords : ∀ w ∈ (words buf).take 3, w.length < maxLine
  · rw [and_iff_right hwords]
    simp only [handleLine_out hwords]
    split_ifs with hget
    · simp only [returns_const]
      exact error_iff h (by decide)
    · simp only [(settles_requestReadhdrs rio stack.hdr).returns_then, exists_and_left]
      refine and_congr (headersEnd_iff rio stack.hdr) ?_
      by_cases hparse : ParseFits maxLine (uriOf stack buf)
      · rw [and_iff_right hparse, ((requestParseURI_spec maxLine _ _).ret hparse).1]
        exact serveFile_iff h
      · rw [((requestParseURI_spec maxLine _ _).ub hparse).1]
        exact iff_of_false (fun ⟨_, he⟩ => by cases he) fun h => hparse h.1
  · simp only [handleLine_ub hwords]
    exact iff_of_false (fun ⟨_, he⟩ => by cases returns_const.mp he) fun h => hwords h.1

/-- **After the request has been counted.** -/
theorem answer_iff {conn : Conn} (h : InRange stats arrivalTime dispatchInterval) :
    (∃ s, Returns (fun fuel => (answer os stack fuel conn stats arrivalTime dispatchInterval).out) s) ↔
      (rioReadinitb conn).Delivers ∧
        LineAnswered os conn.sink stats arrivalTime dispatchInterval stack (rioReadinitb conn).rest conn.ending
          (cstr (if (rioReadinitb conn).stream = [] then stack.buf else (rioReadinitb conn).line)) := by
  unfold answer
  by_cases hd : (rioReadinitb conn).Delivers
  · obtain ⟨rio, hline, hs, he⟩ := readlineb_ret stack.buf hd
    rw [and_iff_right hd]
    simp only [hline, lift_ret_bind]
    rw [handleLine_iff h, hs, he]
    rfl
  · rw [readlineb_exit stack.buf hd]
    refine iff_of_false (fun ⟨s, hret⟩ => ?_) fun h => hd h.1
    cases returns_const.mp hret

end Returns

/-- **Exactly when a request is survived.** Whatever the reads and the writes of the connection do:
`requestHandle` returns if and only if the reads do not fail before the request line is complete, the line and
the headers are those of a request whose texts fit into the buffers, and the client takes the whole response;
and if the other calls succeed. -/
theorem returns_iff_answered {os : Os} {stack : Stack} {conn : Conn} {stats : Stats}
    {arrivalTime dispatchInterval : ℚ} (h : InRange stats arrivalTime dispatchInterval) :
    (∃ s, Returns (fun fuel => (requestHandle os stack fuel conn stats arrivalTime dispatchInterval).out) s) ↔
      Answered os stats arrivalTime dispatchInterval stack conn := by
  unfold requestHandle Answered
  by_cases hlt : stats.handlerThreadReqCount < intMax
  · have hr : InRange { stats with handlerThreadReqCount := stats.handlerThreadReqCount + 1 }
        arrivalTime dispatchInterval := { h with reqCount := natAbs_succ h.reqCount hlt }
    simp only [increment_of_lt hlt, lift_ret_bind]
    rw [and_iff_right hlt, answer_iff hr]
  · have hub : increment stats.handlerThreadReqCount = .ub := if_neg hlt
    rw [hub]
    refine iff_of_false (fun ⟨s, hret⟩ => ?_) fun h => hlt h.1
    cases returns_const.mp hret

/-- A request for the root of a server without files. -/
def getRoot : Conn where
  reads := [some ⟨"GET / HTTP/1.0\r\n\r\n".toList, by decide, by decide⟩]
  ending := .eof
  sink := ⟨[], none⟩

theorem answered_root : Answered noFiles noStats 0 0 (stackOf []) getRoot := by
  have hcut : cutLine '\n' (maxLine - 1) (rioReadinitb getRoot).stream = ("GET / HTTP/1.0\r\n".toList, crlf) :=
    @cutLine_of_complete _ _ _ _ "GET / HTTP/1.0\r\n".toList crlf (by decide) (.inl (by decide)) (by decide)
  have hline : cstr (if (rioReadinitb getRoot).stream = [] then (stackOf []).buf else (rioReadinitb getRoot).line) =
      "GET / HTTP/1.0\r\n".toList := by
    rw [if_neg (by decide), Rio.line, hcut]
    decide
  have hrest : (rioReadinitb getRoot).rest = crlf := by rw [Rio.rest, hcut]
  have hwords : words "GET / HTTP/1.0\r\n".toList = ["GET".toList, "/".toList, "HTTP/1.0".toList] := by decide
  have hfile := length_fileOf_le "/".toList
  have hone : "/".toList.length = 1 := by decide
  refine ⟨by decide, .inl rfl, ?_⟩
  rw [hline, hrest]
  unfold LineAnswered methodOf uriOf
  rw [hwords]
  refine ⟨by decide, ?_⟩
  rw [if_neg (by decide)]
  refine ⟨.inl ⟨[], [], rfl, startsLine_nil⟩, (parseFits_iff (by decide)).mpr ⟨by decide, ?_⟩, ?_, ?_⟩
  · exact hfile.trans_lt (by decide)
  · rw [errorFits_iff]
    show 89 + ((fileOf "/".toList).length + 3 + 9 + 38) < 8192
    omega
  · intro r hr
    cases hr

theorem returns_iff_answered_root : ∃ s, Returns (fun fuel =>
    (requestHandle noFiles (stackOf []) fuel getRoot noStats 0 0).out) s :=
  (returns_iff_answered (by constructor <;> norm_num [noStats])).mpr answered_root

/-- Two bytes, and then the connection is reset. -/
def reset : Conn where
  reads := [some ⟨['G', 'E'], by decide, by decide⟩]
  ending := .failed
  sink := ⟨[], none⟩

/-- **A client that resets the connection** before its request is complete ends the server. -/
theorem reset_ends_server : ¬ ∀ os stack conn stats arrivalTime dispatchInterval,
    InRange stats arrivalTime dispatchInterval →
      ∃ s, Returns (fun fuel => (requestHandle os stack fuel conn stats arrivalTime dispatchInterval).out) s := by
  intro hall
  obtain ⟨s, N, hN⟩ := hall noFiles (stackOf []) reset noStats 0 0 (by constructor <;> norm_num [noStats])
  have hd : ¬ (rioReadinitb reset).Delivers := by
    rintro (h | h)
    · cases h
    · exact absurd h (by decide)
  have hcount : increment noStats.handlerThreadReqCount = .ret 1 := by decide
  have hret := hN N le_rfl
  beta_reduce at hret
  rw [requestHandle, hcount, lift_ret_bind, answer, readlineb_exit _ hd, lift_exit_bind] at hret
  cases hret

end OsHomework.Server
