import OsHomework.Server.Replies

/-!
# What a response reports

A client reads the counters of the thread off the lines of the response.

* `reported name text`: the value of the first line of `text` that begins with `name`;
* `Reports text stats`: the three counters are those of `stats`, whatever follows `text`;
* `served`: which of the functions that respond have been called;
* **`responds_answer`**: a request that is answered is answered once, with the counters as they are then, and only the
  counter of its kind has been raised.
-/

set_option autoImplicit false

namespace OsHomework.Server

open Logged

/-- The value in the first line that begins with `name`. -/
def reported (name text : List Char) : Option (List Char) :=
  ((text.splitOn '\n').find? name.isPrefixOf).map fun l => (l.drop name.length).takeWhile (· ≠ '\r')

/-- Which responses have been chosen. -/
def served (log : List Event) : List Kind :=
  log.filterMap fun e => match e with
    | .serve kind => some kind
    | _ => none

/-- A client that reads `text`, and whatever follows, finds the counters of `stats`. -/
def Reports (text : List Char) (stats : Stats) : Prop := ∀ output,
  reported "Stat-Thread-Count:: ".toList (text ++ output) = some (decimal stats.handlerThreadReqCount) ∧
  reported "Stat-Thread-Static:: ".toList (text ++ output) = some (decimal stats.handlerThreadStaticReqCount) ∧
  reported "Stat-Thread-Dynamic:: ".toList (text ++ output) = some (decimal stats.handlerThreadDynamicReqCount)

/-! ## Reading lines -/

section Lines

variable {name l text : List Char}

/-- **One line is read**, and skipped if it is another one. -/
theorem reported_line (hl : '\n' ∉ l) (text : List Char) : reported name (l ++ (crlf ++ text)) =
    if name.isPrefixOf (l ++ ['\r']) then some (((l ++ ['\r']).drop name.length).takeWhile (· ≠ '\r'))
    else reported name text := by
  have hsplit : (l ++ (crlf ++ text)).splitOn '\n' = (l ++ ['\r']) :: text.splitOn '\n' := by
    rw [← List.splitOn_append_cons_self_of_not_mem (by simp [hl]) text, List.append_assoc]
    rfl
  rw [reported, hsplit, List.find?_cons]
  split_ifs with h
  · rw [h]
    rfl
  · rw [Bool.eq_false_of_not_eq_true h]
    rfl

/-- The text of a value. -/
def Plain (value : List Char) : Prop := ∀ c ∈ value, c ≠ '\n' ∧ c ≠ '\r'

instance (value : List Char) : Decidable (Plain value) :=
  List.decidableBAll (fun c => c ≠ '\n' ∧ c ≠ '\r') value

variable {value : List Char}

theorem notMem_line (hname : '\n' ∉ name) (hvalue : Plain value) : '\n' ∉ name ++ value := by
  rw [List.mem_append]
  rintro (h | h)
  · exact hname h
  · exact (hvalue _ h).1 rfl

theorem reported_value (hname : '\n' ∉ name) (hvalue : Plain value) (text : List Char) :
    reported name (name ++ (value ++ (crlf ++ text))) = some value := by
  have hprefix : name.isPrefixOf (name ++ value ++ ['\r']) := by
    rw [List.isPrefixOf_iff_prefix, List.append_assoc]
    exact List.prefix_append _ _
  have htake : (value ++ ['\r']).takeWhile (· ≠ '\r') = value := by
    rw [List.takeWhile_append_of_pos fun c hc => by simpa using (hvalue c hc).2]
    simp
  rw [← List.append_assoc, reported_line (notMem_line hname hvalue), if_pos hprefix, List.append_assoc,
    List.drop_left, htake]

theorem reported_skip {name' : List Char} (hname : '\n' ∉ name') (hvalue : Plain value)
    (hother : ∀ t, name.isPrefixOf (name' ++ t) = false) (text : List Char) :
    reported name (name' ++ (value ++ (crlf ++ text))) = reported name text := by
  have hno : ¬ name.isPrefixOf (name' ++ value ++ ['\r']) := by
    rw [List.append_assoc, hother]
    exact Bool.false_ne_true
  rw [← List.append_assoc, reported_line (notMem_line hname hvalue), if_neg hno]

theorem plain_digits (n : ℕ) : Plain (Nat.toDigits 10 n) := by
  intro c h
  have := Nat.isDigit_of_mem_toDigits (by decide) (by decide) h
  constructor <;> rintro rfl <;> cases this

theorem plain_decimal (x : ℤ) : Plain (decimal x) := by
  unfold decimal
  split_ifs
  · intro c hc
    rcases List.mem_cons.mp hc with rfl | hc
    · decide
    · exact plain_digits _ c hc
  · exact plain_digits _

theorem plain_fixed6 (q : ℚ) : Plain (fixed6 q) := by
  intro c hc
  simp only [fixed6, List.leftpad, List.mem_append, List.mem_cons, List.mem_replicate] at hc
  rcases hc with (hc | hc) | rfl | ⟨-, rfl⟩ | hc
  · split_ifs at hc
    · obtain rfl := List.mem_singleton.mp hc
      decide
    · cases hc
  · exact plain_digits _ c hc
  · decide
  · decide
  · exact plain_digits _ c hc

end Lines

/-! ## The lines of the responses -/

section Texts

variable {stats : Stats} {arrivalTime dispatchInterval : ℚ}

theorem reports_statLines (ending : List Char) :
    Reports (statLines stats arrivalTime dispatchInterval (crlf ++ ending)).flatten stats := by
  have harrival := plain_fixed6 arrivalTime
  have hdispatch := plain_fixed6 dispatchInterval
  intro output
  simp only [statLines, List.flatten_cons, List.flatten_nil, List.append_nil, List.append_assoc]
  refine ⟨?_, ?_, ?_⟩
  · rw [reported_skip (by decide) harrival fun _ => rfl, reported_skip (by decide) hdispatch fun _ => rfl,
      reported_skip (by decide) (plain_decimal _) fun _ => rfl]
    exact reported_value (by decide) (plain_decimal _) _
  · rw [reported_skip (by decide) harrival fun _ => rfl, reported_skip (by decide) hdispatch fun _ => rfl,
      reported_skip (by decide) (plain_decimal _) fun _ => rfl,
      reported_skip (by decide) (plain_decimal _) fun _ => rfl]
    exact reported_value (by decide) (plain_decimal _) _
  · rw [reported_skip (by decide) harrival fun _ => rfl, reported_skip (by decide) hdispatch fun _ => rfl,
      reported_skip (by decide) (plain_decimal _) fun _ => rfl,
      reported_skip (by decide) (plain_decimal _) fun _ => rfl,
      reported_skip (by decide) (plain_decimal _) fun _ => rfl]
    exact reported_value (by decide) (plain_decimal _) _

theorem Reports.append {text : List Char} (h : Reports text stats) (text' : List Char) :
    Reports (text ++ text') stats := by
  intro output
  rw [List.append_assoc]
  exact h _

/-- A line that does not begin like those about the thread. -/
def OtherLine (l : List Char) : Prop :=
  ∃ name value, l = name ++ value ++ crlf ∧ '\n' ∉ name ∧ Plain value ∧
    ∀ t, "Stat-".toList.isPrefixOf (name ++ t) = false

theorem Reports.line {l : List Char} {ls : List (List Char)} (h : Reports ls.flatten stats) (hl : OtherLine l) :
    Reports (l :: ls).flatten stats := by
  obtain ⟨name, value, rfl, hname, hvalue, hother⟩ := hl
  have hno : ∀ {name'}, "Stat-".toList <+: name' → ∀ t, name'.isPrefixOf (name ++ t) = false := by
    intro name' hle t
    rw [Bool.eq_false_iff, ne_eq, List.isPrefixOf_iff_prefix]
    intro hpre
    have := List.isPrefixOf_iff_prefix.mpr (hle.trans hpre)
    rw [hother] at this
    cases this
  intro output
  simp only [List.flatten_cons, List.append_assoc]
  rw [reported_skip hname hvalue (hno (by decide)), reported_skip hname hvalue (hno (by decide)),
    reported_skip hname hvalue (hno (by decide))]
  exact h output

theorem plain_status {errnum shortmsg : List Char} (he : Plain errnum) (hs : Plain shortmsg) :
    Plain (errnum ++ " ".toList ++ shortmsg) := by
  intro c hc
  rw [List.mem_append, List.mem_append] at hc
  rcases hc with (hc | hc) | hc
  · exact he c hc
  · obtain rfl := List.mem_singleton.mp hc
    decide
  · exact hs c hc

theorem reports_errorText {cause errnum shortmsg longmsg : List Char} (he : Plain errnum) (hs : Plain shortmsg) :
    Reports (errorText cause errnum shortmsg longmsg stats arrivalTime dispatchInterval) stats := by
  refine Reports.append (Reports.line (Reports.line (Reports.line (reports_statLines crlf) ?_) ?_) ?_) _
  · exact ⟨"Content-Length: ".toList, _, rfl, by decide, plain_decimal _, fun _ => rfl⟩
  · exact ⟨"Content-Type: text/html".toList, [], by decide, by decide, by decide, fun _ => rfl⟩
  · exact ⟨"HTTP/1.0 ".toList, _, by simp, by decide, plain_status he hs, fun _ => rfl⟩

theorem plain_fileType (filename : List Char) : Plain (fileType filename) := by
  unfold fileType
  split_ifs <;> decide

theorem otherLine_ok : OtherLine "HTTP/1.0 200 OK\r\n".toList :=
  ⟨"HTTP/1.0 200 OK".toList, [], by decide, by decide, by decide, fun _ => rfl⟩

theorem otherLine_server : OtherLine "Server: OS-HW3 Web Server\r\n".toList :=
  ⟨"Server: OS-HW3 Web Server".toList, [], by decide, by decide, by decide, fun _ => rfl⟩

theorem reports_staticHeader (filename : List Char) (filesize : ℤ) :
    Reports (staticHeader filename filesize stats arrivalTime dispatchInterval).flatten stats := by
  refine Reports.line (Reports.line (Reports.line (Reports.line (reports_statLines crlf) ?_) ?_) otherLine_server)
    otherLine_ok
  · exact ⟨"Content-Type: ".toList, _, rfl, by decide, plain_fileType filename, fun _ => rfl⟩
  · exact ⟨"Content-Length: ".toList, _, rfl, by decide, plain_decimal _, fun _ => rfl⟩

theorem reports_dynamicHeader : Reports (dynamicHeader stats arrivalTime dispatchInterval).flatten stats :=
  Reports.line (Reports.line (reports_statLines []) otherLine_server) otherLine_ok

end Texts

/-! ## What is logged -/

theorem put_value {size : ℕ} {s b : List Char} (h : (put size s).out = .ret b) : b = s := by
  rw [put_out] at h
  split_ifs at h
  exact (Outcome.ret.inj h).symm

theorem append_value {size : ℕ} {buf b : List Char} {ls : List (List Char)} (h : (append size buf ls).out = .ret b) :
    b = buf ++ ls.flatten := by
  induction ls generalizing buf with
  | nil => simpa using (Outcome.ret.inj h).symm
  | cons l ls ih =>
    obtain ⟨b', hb', h⟩ := Outcome.bind_eq_ret.mp h
    rw [ih h, put_value hb', List.append_assoc, List.flatten_cons]

/-- If `x` returns, it has chosen the responses `kinds` and sent `text`. -/
def Logs {α : Type} (x : Logged Event α) (kinds : List Kind) (text : List Char) : Prop :=
  ∀ a, x.out = .ret a → served x.log = kinds ∧ sent x.log = text

section Logs

variable {α β : Type} {x : Logged Event α} {f : α → Logged Event β} {kinds kinds' : List Kind} {text text' : List Char}

theorem served_append (log log' : List Event) : served (log ++ log') = served log ++ served log' :=
  List.filterMap_append

/-- **The rule for sequences.** -/
theorem Logs.bind (hx : Logs x kinds text) (hf : ∀ a, x.out = .ret a → Logs (f a) kinds' text') :
    Logs (x >>= f) (kinds ++ kinds') (text ++ text') := by
  intro b hb
  obtain ⟨a, ha, hfa⟩ := Outcome.bind_eq_ret.mp hb
  obtain ⟨hk, ht⟩ := hx a ha
  obtain ⟨hk', ht'⟩ := hf a ha b hfa
  rw [log_bind_ret ha, served_append, sent_append, hk, ht, hk', ht']
  exact ⟨rfl, rfl⟩

theorem Logs.after (hx : Logs x [] []) (hf : ∀ a, x.out = .ret a → Logs (f a) kinds text) : Logs (x >>= f) kinds text :=
  hx.bind hf

theorem Logs.seq (hx : Logs x [] text) (hf : ∀ a, x.out = .ret a → Logs (f a) [] text') :
    Logs (x >>= f) [] (text ++ text') := hx.bind hf

theorem Logs.serve {kind : Kind} {g : Unit → Logged Event β} (hg : Logs (g ()) kinds text) :
    Logs (log (.serve kind) >>= g) (kind :: kinds) text := by
  have hlog : Logs (log (.serve kind)) [kind] [] := fun _ _ => ⟨rfl, rfl⟩
  exact hlog.bind fun _ _ => hg

theorem Logs.pure (a : α) : Logs (pure a) [] [] := fun _ _ => ⟨rfl, rfl⟩

theorem Logs.lift (o : Outcome α) : Logs (Logged.lift o) [] [] := fun _ _ => ⟨rfl, rfl⟩

theorem Logs.check (ok : Bool) : Logs (check ok) [] [] := Logs.lift _

theorem Logs.put (size : ℕ) (s : List Char) : Logs (put size s) [] [] := fun _ _ => ⟨rfl, rfl⟩

theorem Logs.writen (sink : Sink) (s : List Char) : Logs (writen sink s) [] s :=
  fun _ _ => ⟨rfl, by simp [sent, OsHomework.Server.writen]⟩

theorem Logs.sendLines (sink : Sink) (ls : List (List Char)) : Logs (sendLines sink ls) [] ls.flatten := by
  induction ls generalizing sink with
  | nil => exact .pure sink
  | cons l ls ih =>
    refine .after (.put maxLine l) fun buf hb => ?_
    rw [put_value hb]
    exact Logs.seq (.writen sink l) fun sink' _ => ih sink'

theorem Logs.append (size : ℕ) (buf : List Char) (ls : List (List Char)) : Logs (append size buf ls) [] [] := by
  induction ls generalizing buf with
  | nil => exact .pure buf
  | cons l ls ih => exact .after (.put size _) fun buf' _ => ih buf'

variable {os : Os} {sink : Sink} {stats : Stats} {arrivalTime dispatchInterval : ℚ}

theorem requestError_logs {cause errnum shortmsg longmsg : List Char} :
    Logs (requestError sink cause errnum shortmsg longmsg stats arrivalTime dispatchInterval) [.error]
      (errorText cause errnum shortmsg longmsg stats arrivalTime dispatchInterval) := by
  unfold requestError errorText
  refine Logs.serve (Logs.after (.append _ _ _) fun body hb => ?_)
  rw [append_value hb, List.nil_append]
  exact Logs.seq (.sendLines sink _) fun sink' _ => .writen sink' _

theorem requestServeDynamic_logs {filename cgiargs : List Char} :
    Logs (requestServeDynamic os sink filename cgiargs stats arrivalTime dispatchInterval) [.dynamic]
      (dynamicHeader stats arrivalTime dispatchInterval).flatten := by
  unfold requestServeDynamic
  refine Logs.serve (Logs.after (.append _ _ _) fun buf hb => ?_)
  rw [append_value hb, List.nil_append, ← dynamicHeader]
  have h := Logs.seq (.writen sink (dynamicHeader stats arrivalTime dispatchInterval).flatten) fun sink' _ =>
    Logs.after (.check os.fork) fun _ _ =>
      Logs.after (fun _ _ => ⟨rfl, rfl⟩ : Logs (log (.exec filename cgiargs)) [] [])
        fun _ _ => Logs.after (.check os.waitpid) fun _ _ => Logs.pure sink'
  rwa [List.append_nil] at h

theorem requestServeStatic_logs {filename : List Char} {filesize : ℤ} : ∃ srcp,
    Logs (requestServeStatic os sink filename filesize stats arrivalTime dispatchInterval) [.static]
      ((staticHeader filename filesize stats arrivalTime dispatchInterval).flatten ++ srcp) := by
  unfold requestServeStatic
  rw [requestGetFiletype_eq]
  cases os.mmap filename (toSize filesize) with
  | none =>
    refine ⟨[], Logs.serve (Logs.after (.put _ _) fun _ _ => Logs.after (.check _) fun _ _ => ?_)⟩
    exact fun _ h => by cases h
  | some srcp =>
    refine ⟨srcp.1, Logs.serve (Logs.after (.put _ _) fun filetype hf => Logs.after (.check _) fun _ _ => ?_)⟩
    rw [put_value hf]
    refine Logs.after (.check _) fun _ _ => Logs.after (.append _ _ _) fun buf hb => ?_
    rw [append_value hb, List.nil_append, ← staticHeader]
    refine Logs.seq (.writen sink _) fun sink₁ _ => ?_
    have h := Logs.seq (.writen sink₁ srcp.1) fun sink₂ _ =>
      Logs.after (.check (os.munmap filename (toSize filesize))) fun _ _ => Logs.pure sink₂
    rwa [List.append_nil] at h

/-! ### A whole request -/

/-- The counters after a response of this kind. -/
def Stats.count (stats : Stats) : Kind → Stats
  | .error => stats
  | .static => { stats with handlerThreadStaticReqCount := stats.handlerThreadStaticReqCount + 1 }
  | .dynamic => { stats with handlerThreadDynamicReqCount := stats.handlerThreadDynamicReqCount + 1 }

/-- `x` is one response, and returns the counters that it reports. -/
def Responds (x : Logged Event Stats) (stats : Stats) : Prop :=
  ∀ s, x.out = .ret s → ∃ kind, served x.log = [kind] ∧ s = stats.count kind ∧ Reports (sent x.log) s

theorem Responds.after {x : Logged Event α} {f : α → Logged Event Stats} (hx : Logs x [] [])
    (hf : ∀ a, x.out = .ret a → Responds (f a) stats) : Responds (x >>= f) stats := by
  intro s hs
  obtain ⟨a, ha, hfa⟩ := Outcome.bind_eq_ret.mp hs
  obtain ⟨hk, ht⟩ := hx a ha
  obtain ⟨kind, hkind, hcount, hreports⟩ := hf a ha s hfa
  refine ⟨kind, ?_, hcount, ?_⟩
  · rw [log_bind_ret ha, served_append, hk, hkind, List.nil_append]
  · rwa [log_bind_ret ha, sent_append, ht, List.nil_append]

theorem Responds.of_logs {x : Logged Event Sink} (kind : Kind) (hx : Logs x [kind] text)
    (ht : Reports text (stats.count kind)) : Responds (x >>= fun _ => pure (stats.count kind)) stats := by
  intro s hs
  obtain ⟨sink', ho, h⟩ := Outcome.bind_eq_ret.mp hs
  obtain rfl := Outcome.ret.inj h
  obtain ⟨hk, hsent⟩ := hx sink' ho
  have hlog := @log_bind_ret _ _ x (fun _ => Pure.pure (stats.count kind)) sink' ho
  rw [log_pure, List.append_nil] at hlog
  exact ⟨kind, by rw [hlog, hk], rfl, by rw [hlog, hsent]; exact ht⟩

theorem responds_error {cause errnum shortmsg longmsg : List Char} (he : Plain errnum) (hs : Plain shortmsg) :
    Responds (do
      let _ ← requestError sink cause errnum shortmsg longmsg stats arrivalTime dispatchInterval
      pure stats) stats :=
  .of_logs .error requestError_logs (reports_errorText he hs)

theorem increment_value {x y : ℤ} (h : increment x = .ret y) : y = x + 1 := by
  unfold increment at h
  split_ifs at h
  exact (Outcome.ret.inj h).symm

theorem responds_serveFile {static : Bool} {filename cgiargs : List Char} :
    Responds (serveFile os sink static filename cgiargs stats arrivalTime dispatchInterval) stats := by
  unfold serveFile
  cases os.stat filename with
  | none => exact responds_error (by decide) (by decide)
  | some sbuf =>
    dsimp only
    split_ifs
    · exact responds_error (by decide) (by decide)
    · refine Responds.after (.lift _) fun count hc => ?_
      obtain rfl := increment_value hc
      obtain ⟨srcp, h⟩ := @requestServeStatic_logs os sink (stats.count .static) arrivalTime dispatchInterval
        filename (toInt sbuf.stSize)
      exact .of_logs .static h ((reports_staticHeader filename _).append srcp)
    · exact responds_error (by decide) (by decide)
    · refine Responds.after (.lift _) fun count hc => ?_
      obtain rfl := increment_value hc
      exact .of_logs .dynamic requestServeDynamic_logs reports_dynamicHeader

theorem Logs.scan (word : Option (List Char)) (array : List Char) : Logs (scan word array) [] [] := by
  cases word with
  | none => exact .pure _
  | some w => exact .put maxLine w

theorem Logs.requestParseURI (size : ℕ) (uri cgiargs : List Char) : Logs (requestParseURI size uri cgiargs) [] [] := by
  unfold OsHomework.Server.requestParseURI
  have hlast : Logs (lastChar uri) [] [] := fun _ _ => ⟨rfl, rfl⟩
  split_ifs
  · exact .after (.put _ _) fun _ _ => .pure _
  · exact .after (.put _ _) fun _ _ => .after (.put _ _) fun _ _ => .pure _
  · exact .after (.put _ _) fun _ _ => .after (.put _ _) fun _ _ => .pure _
  · refine .after (.put _ _) fun _ _ => .after (.put _ _) fun _ _ => .after hlast fun c _ => ?_
    split_ifs
    · exact .after (.put _ _) fun _ _ => .pure _
    · exact .pure _

/-- **A request that returns has been answered once**, and the response reports the counters as they are then. -/
theorem responds_answer {stack : Stack} {fuel : ℕ} {conn : Conn} :
    Responds (answer os stack fuel conn stats arrivalTime dispatchInterval) stats := by
  refine Responds.after (.lift _) fun p _ => ?_
  dsimp only
  unfold handleLine
  refine Responds.after (.scan _ _) fun method _ => Responds.after (.scan _ _) fun uri _ =>
    Responds.after (.scan _ _) fun version _ => ?_
  split_ifs
  · exact responds_error (by decide) (by decide)
  · exact Responds.after (.lift _) fun _ _ => Responds.after (.requestParseURI _ _ _) fun q _ => responds_serveFile

end Logs

end OsHomework.Server
