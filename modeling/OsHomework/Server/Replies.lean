import OsHomework.Server.Paths

/-!
# What a response consists of

The texts that the three functions send, and when these functions return.

* `Sink.Takes`, `writenLoop_spec`: a write succeeds exactly if the client takes all of it;
* `Sends x sink text`: `x` stays in bounds and sends `text`; it returns if the client takes it and ends the process
  if not. **`Sends.bind`** is the rule for sequences;
* `errorText`, `staticHeader`, `dynamicHeader`;
* **`requestError_sends`**, `requestError_overflow`, **`serveStatic_iff`**, **`serveDynamic_iff`**.
-/

set_option autoImplicit false

namespace OsHomework.Server

open Logged

/-! ## Writing -/

/-- The client takes `n` more bytes. -/
def Sink.Takes (sink : Sink) (n : ℕ) : Prop := ∀ r ∈ sink.room, n ≤ r

instance (sink : Sink) (n : ℕ) : Decidable (sink.Takes n) := by unfold Sink.Takes; infer_instance

/-- What has been sent. -/
def sent (log : List Event) : List Char :=
  (log.filterMap fun e => match e with
    | .send s => some s
    | _ => none).flatten

section Writes

variable {sink sink' : Sink} {n m : ℕ}

theorem sent_append (log log' : List Event) : sent (log ++ log') = sent log ++ sent log' := by
  rw [sent, List.filterMap_append, List.flatten_append]
  rfl

theorem Sink.takes_zero (sink : Sink) : sink.Takes 0 := fun r _ => r.zero_le

theorem Sink.takes_add (h : sink'.room = sink.room.map (· - n)) :
    sink.Takes (n + m) ↔ sink.Takes n ∧ sink'.Takes m := by
  unfold Sink.Takes
  rw [h]
  cases sink.room with
  | none => simp
  | some r =>
    simp only [Option.mem_def, Option.some.injEq, forall_eq', Option.map_some]
    omega

/-- **`rio_writen`** succeeds exactly if all bytes are taken. -/
theorem writenLoop_spec (takes : List ℕ) (room : Option ℕ) (nleft : ℕ) :
    ((writenLoop takes room nleft).2 = true ↔ ∀ r ∈ room, nleft ≤ r) ∧
      ((writenLoop takes room nleft).2 = true → (writenLoop takes room nleft).1.room = room.map (· - nleft)) := by
  induction takes generalizing room nleft with
  | nil =>
    cases nleft with
    | zero => cases room <;> simp [writenLoop]
    | succ nleft => cases room <;> simp [writenLoop]
  | cons k takes ih =>
    cases nleft with
    | zero => cases room <;> simp [writenLoop]
    | succ nleft =>
      rw [writenLoop]
      split_ifs with h
      · simp [h]
      · obtain ⟨hiff, hroom⟩ := ih (room.map (· - min (min k (nleft + 1)) (room.getD k)))
          (nleft + 1 - min (min k (nleft + 1)) (room.getD k))
        refine ⟨hiff.trans ?_, fun h' => (hroom h').trans ?_⟩
        · cases room with
          | none => simp
          | some r =>
            simp only [Option.mem_def, Option.map_some, Option.some.injEq, forall_eq', Option.getD_some]
            omega
        · cases room with
          | none => rfl
          | some r =>
            simp only [Option.map_some, Option.getD_some, Option.some.injEq]
            omega

theorem log_bind_ret {α β : Type} {x : Logged Event α} {f : α → Logged Event β} {a : α} (h : x.out = .ret a) :
    (x >>= f).log = x.log ++ (f a).log := by
  show x.log ++ rest x.out f = _
  rw [h]
  rfl

end Writes

/-- `x` stays in bounds and sends `text`: it returns if the client takes it, and ends the process if not. -/
structure Sends (x : Logged Event Sink) (sink : Sink) (text : List Char) : Prop where
  within : Within Event.InBounds x
  ret : sink.Takes text.length → ∃ sink', x.out = .ret sink' ∧
    sink'.room = sink.room.map (· - text.length) ∧ sent x.log = text
  exit : ¬ sink.Takes text.length → x.out = .exit 0

section Sends

variable {sink : Sink} {text text' s : List Char} {x : Logged Event Sink} {f : Sink → Logged Event Sink} {size : ℕ}

theorem Sends.pure (sink : Sink) : Sends (pure sink) sink [] :=
  ⟨Within.pure _, fun _ => ⟨sink, rfl, by simp, rfl⟩, fun h => absurd sink.takes_zero h⟩

theorem Sends.writen (sink : Sink) (s : List Char) : Sends (writen sink s) sink s := by
  obtain ⟨hiff, hroom⟩ := writenLoop_spec sink.takes sink.room s.length
  refine ⟨fun e he => ?_, fun h => ?_, fun h => ?_⟩
  · obtain rfl : e = .send s := List.mem_singleton.mp he
    trivial
  · have hok := hiff.mpr h
    exact ⟨_, if_pos hok, hroom hok, by simp [sent, OsHomework.Server.writen]⟩
  · exact if_neg fun hok => h (hiff.mp hok)

/-- **The rule for sequences.** -/
theorem Sends.bind (hx : Sends x sink text)
    (hf : ∀ sink', sink'.room = sink.room.map (· - text.length) → Sends (f sink') sink' text') :
    Sends (x >>= f) sink (text ++ text') := by
  refine ⟨hx.within.bind fun sink' ho => ?_, fun h => ?_, fun h => ?_⟩
  · by_cases h : sink.Takes text.length
    · obtain ⟨sink₁, ho₁, hroom, -⟩ := hx.ret h
      obtain rfl : sink₁ = sink' := Outcome.ret.inj (ho₁.symm.trans ho)
      exact (hf sink₁ hroom).within
    · rw [hx.exit h] at ho
      cases ho
  · rw [List.length_append] at h
    obtain ⟨sink₁, ho₁, hroom₁, hsent₁⟩ := hx.ret fun r hr => (Nat.le_add_right _ _).trans (h r hr)
    obtain ⟨sink₂, ho₂, hroom₂, hsent₂⟩ := (hf sink₁ hroom₁).ret ((Sink.takes_add hroom₁).mp h).2
    refine ⟨sink₂, by rw [out_bind, ho₁]; exact ho₂, ?_, ?_⟩
    · rw [hroom₂, hroom₁, List.length_append]
      cases sink.room with
      | none => rfl
      | some r => simp [Nat.sub_sub]
    · rw [log_bind_ret ho₁, sent_append, hsent₁, hsent₂]
  · by_cases h₁ : sink.Takes text.length
    · obtain ⟨sink₁, ho₁, hroom₁, -⟩ := hx.ret h₁
      rw [out_bind, ho₁]
      refine (hf sink₁ hroom₁).exit fun h₂ => h ?_
      rw [List.length_append]
      exact (Sink.takes_add hroom₁).mpr ⟨h₁, h₂⟩
    · rw [out_bind, hx.exit h₁]
      rfl

theorem Sends.after {α : Type} {y : Logged Event α} {g : α → Logged Event Sink} {a : α} (hy : Within Event.InBounds y)
    (ho : y.out = .ret a) (hsent : sent y.log = []) (hg : Sends (g a) sink text) : Sends (y >>= g) sink text := by
  refine ⟨hy.bind fun b hb => ?_, fun h => ?_, fun h => ?_⟩
  · obtain rfl : a = b := Outcome.ret.inj (ho.symm.trans hb)
    exact hg.within
  · obtain ⟨sink', ho', hroom, hsent'⟩ := hg.ret h
    refine ⟨sink', by rw [out_bind, ho]; exact ho', hroom, ?_⟩
    rw [log_bind_ret ho, sent_append, hsent, hsent']
    rfl
  · rw [out_bind, ho]
    exact hg.exit h

theorem Sends.put {g : List Char → Logged Event Sink} (h : s.length < size) (hg : Sends (g s) sink text) :
    Sends (put size s >>= g) sink text :=
  .after (within_put.mpr h) (put_ret h) rfl hg

theorem sendLines_sends {ls : List (List Char)} (h : ∀ l ∈ ls, l.length < maxLine) (sink : Sink) :
    Sends (sendLines sink ls) sink ls.flatten := by
  induction ls generalizing sink with
  | nil => exact .pure sink
  | cons l ls ih =>
    rw [List.flatten_cons]
    exact .put (h l List.mem_cons_self)
      (.bind (.writen sink l) fun sink' _ => ih (fun l' hl' => h l' (List.mem_cons_of_mem _ hl')) sink')

/-- **The buffer** holds all the lines if they fit. -/
theorem append_spec {ls : List (List Char)} (hls : ls ≠ []) (buf : List Char) :
    Defined (append size buf ls) ((buf ++ ls.flatten).length < size) (buf ++ ls.flatten) := by
  induction ls generalizing buf with
  | nil => exact absurd rfl hls
  | cons l ls ih =>
    rw [List.flatten_cons, ← List.append_assoc, append]
    cases ls with
    | nil =>
      rw [List.flatten_nil, List.append_nil]
      exact (Defined.put size (buf ++ l)).map id
    | cons l' ls =>
      refine ((Defined.put size (buf ++ l)).bind fun _ => ih (List.cons_ne_nil _ _) (buf ++ l)).congr ?_
      exact and_iff_right_of_imp length_lt_of_append

theorem format_spec {ls : List (List Char)} (hls : ls ≠ []) :
    Defined (append size [] ls) (ls.flatten.length < size) ls.flatten := append_spec hls []

theorem append_silent {ls : List (List Char)} {buf : List Char} (hfit : (buf ++ ls.flatten).length < size) :
    sent (append size buf ls).log = [] := by
  induction ls generalizing buf with
  | nil => rfl
  | cons l ls ih =>
    rw [List.flatten_cons, ← List.append_assoc] at hfit
    rw [append, log_bind_ret (put_ret (length_lt_of_append hfit)), sent_append, ih hfit]
    rfl

theorem Sends.append {ls : List (List Char)} {g : List Char → Logged Event Sink} (hls : ls ≠ [])
    (hfit : ls.flatten.length < size) (hg : Sends (g ls.flatten) sink text) :
    Sends (append size [] ls >>= g) sink text :=
  have ⟨ho, hw⟩ := (format_spec hls).ret hfit
  .after hw ho (append_silent hfit) hg

end Sends

/-! ## The texts -/

/-- The values are in the range of their types. -/
structure InRange (stats : Stats) (arrivalTime dispatchInterval : ℚ) : Prop where
  threadId : stats.handlerThreadId.natAbs ≤ 2 ^ 31
  reqCount : stats.handlerThreadReqCount.natAbs ≤ 2 ^ 31
  staticReqCount : stats.handlerThreadStaticReqCount.natAbs ≤ 2 ^ 31
  dynamicReqCount : stats.handlerThreadDynamicReqCount.natAbs ≤ 2 ^ 31
  arrivalTime : |arrivalTime| < 2 ^ 1024
  dispatchInterval : |dispatchInterval| < 2 ^ 1024

/-- All that an error response consists of. -/
def errorText (cause errnum shortmsg longmsg : List Char) (stats : Stats) (arrivalTime dispatchInterval : ℚ) :
    List Char :=
  let body := (errorBody cause errnum shortmsg longmsg).flatten
  (errorHeader errnum shortmsg body stats arrivalTime dispatchInterval).flatten ++ body

section Texts

variable {stats : Stats} {arrivalTime dispatchInterval : ℚ}

theorem statLines_length (h : InRange stats arrivalTime dispatchInterval) (ending : List Char)
    (he : ending.length ≤ 4) :
    (∀ l ∈ statLines stats arrivalTime dispatchInterval ending, l.length < maxLine) ∧
      (statLines stats arrivalTime dispatchInterval ending).flatten.length ≤ 1000 := by
  have h₁ := length_double_le h.arrivalTime
  have h₂ := length_double_le h.dispatchInterval
  have hint : ∀ {x : ℤ}, x.natAbs ≤ 2 ^ 31 → (decimal x).length ≤ 11 := by
    intro x hx
    exact length_decimal_le (by norm_num) (by omega)
  have h₃ := hint h.threadId
  have h₄ := hint h.reqCount
  have h₅ := hint h.staticReqCount
  have h₆ := hint h.dynamicReqCount
  constructor
  · intro l hl
    simp only [statLines, List.mem_cons, List.not_mem_nil, or_false] at hl
    rcases hl with rfl | rfl | rfl | rfl | rfl | rfl <;> simp [crlf, maxLine] <;> omega
  · simp [statLines, crlf]
    omega

theorem length_errorBody (cause errnum shortmsg longmsg : List Char) :
    (errorBody cause errnum shortmsg longmsg).flatten.length =
      89 + (cause.length + errnum.length + shortmsg.length + longmsg.length) := by
  simp [errorBody, crlf]
  omega

/-- The body of an error message fits into its buffer. -/
def ErrorFits (cause errnum shortmsg longmsg : List Char) : Prop :=
  (errorBody cause errnum shortmsg longmsg).flatten.length < maxBuf

instance (cause errnum shortmsg longmsg : List Char) : Decidable (ErrorFits cause errnum shortmsg longmsg) := by
  unfold ErrorFits
  infer_instance

section Error

variable {sink : Sink} {cause errnum shortmsg longmsg : List Char}

/-- **An error response** is sent if its body fits. -/
theorem requestError_sends (h : InRange stats arrivalTime dispatchInterval)
    (hshort : errnum.length + shortmsg.length ≤ 100) (hfit : ErrorFits cause errnum shortmsg longmsg) :
    Sends (requestError sink cause errnum shortmsg longmsg stats arrivalTime dispatchInterval) sink
      (errorText cause errnum shortmsg longmsg stats arrivalTime dispatchInterval) := by
  refine .after (within_log.mpr trivial) rfl rfl (.append (by simp [errorBody]) hfit ?_)
  refine .bind (sendLines_sends ?_ sink) fun sink' _ => .writen sink' _
  intro l hl
  rcases List.mem_append.mp hl with hl | hl
  · have hlen := length_decimal_le (x := (errorBody cause errnum shortmsg longmsg).flatten.length) (k := 4)
      (by norm_num) (by
        rw [Int.natAbs_natCast]
        exact hfit.trans (by norm_num [maxBuf]))
    set body := (errorBody cause errnum shortmsg longmsg).flatten
    simp only [List.mem_cons, List.not_mem_nil, or_false] at hl
    rcases hl with rfl | rfl | rfl <;> simp [crlf, maxLine] <;> omega
  · exact (statLines_length h _ (by decide)).1 l hl

/-- An error page that does not fit overflows its array. -/
theorem requestError_overflow (hfit : ¬ ErrorFits cause errnum shortmsg longmsg) :
    (requestError sink cause errnum shortmsg longmsg stats arrivalTime dispatchInterval).out = .ub ∧
      ¬ Within Event.InBounds (requestError sink cause errnum shortmsg longmsg stats arrivalTime dispatchInterval) := by
  have hls : errorBody cause errnum shortmsg longmsg ≠ [] := by simp [errorBody]
  obtain ⟨ho, hw⟩ := (format_spec hls).ub hfit
  refine ⟨?_, fun h => hw ?_⟩
  · rw [requestError, out_bind, log_out, Outcome.ret_bind, out_bind, ho]
    rfl
  · rw [requestError, within_bind_iff] at h
    exact (within_bind_iff.mp (h.2 () rfl)).1

theorem requestError_iff (h : InRange stats arrivalTime dispatchInterval)
    (hshort : errnum.length + shortmsg.length ≤ 100) :
    (∃ sink', (requestError sink cause errnum shortmsg longmsg stats arrivalTime dispatchInterval).out = .ret sink') ↔
      ErrorFits cause errnum shortmsg longmsg ∧
        sink.Takes (errorText cause errnum shortmsg longmsg stats arrivalTime dispatchInterval).length := by
  by_cases hfit : ErrorFits cause errnum shortmsg longmsg
  · rw [and_iff_right hfit]
    have hsends := @requestError_sends _ _ _ sink _ _ _ _ h hshort hfit
    by_cases htakes : sink.Takes (errorText cause errnum shortmsg longmsg stats arrivalTime dispatchInterval).length
    · obtain ⟨sink', ho, -⟩ := hsends.ret htakes
      exact iff_of_true ⟨sink', ho⟩ htakes
    · refine iff_of_false (fun ⟨sink', ho⟩ => ?_) htakes
      rw [hsends.exit htakes] at ho
      cases ho
  · refine iff_of_false (fun ⟨sink', ho⟩ => ?_) fun h => hfit h.1
    rw [(requestError_overflow hfit).1] at ho
    cases ho

end Error

/-! ## Files and programs -/

/-- What `requestGetFiletype` finds. -/
def fileType (filename : List Char) : List Char :=
  if ".html".toList <:+: filename then "text/html".toList
  else if ".gif".toList <:+: filename then "image/gif".toList
  else if ".jpg".toList <:+: filename then "image/jpeg".toList
  else "text/plain".toList

/-- The lines before the contents of a file. -/
def staticHeader (filename : List Char) (filesize : ℤ) (stats : Stats) (arrivalTime dispatchInterval : ℚ) :
    List (List Char) :=
  ["HTTP/1.0 200 OK\r\n".toList, "Server: OS-HW3 Web Server\r\n".toList,
    "Content-Length: ".toList ++ decimal filesize ++ crlf,
    "Content-Type: ".toList ++ fileType filename ++ crlf] ++
  statLines stats arrivalTime dispatchInterval (crlf ++ crlf)

/-- The lines before what a program writes. -/
def dynamicHeader (stats : Stats) (arrivalTime dispatchInterval : ℚ) : List (List Char) :=
  ["HTTP/1.0 200 OK\r\n".toList, "Server: OS-HW3 Web Server\r\n".toList] ++
  statLines stats arrivalTime dispatchInterval crlf

theorem requestGetFiletype_eq (filename : List Char) :
    requestGetFiletype filename = put maxLine (fileType filename) := by
  unfold requestGetFiletype fileType
  split_ifs <;> rfl

theorem length_fileType_le (filename : List Char) : (fileType filename).length ≤ 10 := by
  unfold fileType
  split_ifs <;> decide

section Serve

variable {os : Os} {sink sink' : Sink} {filename cgiargs : List Char} {filesize : ℤ}

@[simp] theorem within_check (ok : Bool) : Within Event.InBounds (check ok) := Within.lift _

theorem check_ret {ok : Bool} : (check ok).out = .ret () ↔ ok = true := by
  cases ok <;> simp [check]

theorem length_dynamicHeader (h : InRange stats arrivalTime dispatchInterval) :
    (dynamicHeader stats arrivalTime dispatchInterval).flatten.length < maxLine := by
  have := (statLines_length h crlf (by decide)).2
  rw [dynamicHeader, List.flatten_append, List.length_append]
  simp [maxLine] at this ⊢
  omega

theorem length_staticHeader (h : InRange stats arrivalTime dispatchInterval) (hsize : filesize.natAbs ≤ 2 ^ 31) :
    (staticHeader filename filesize stats arrivalTime dispatchInterval).flatten.length < maxBuf := by
  have hstat := (statLines_length h (crlf ++ crlf) (by decide)).2
  have hlen := length_decimal_le (x := filesize) (k := 10) (by norm_num) (by omega)
  have htype := length_fileType_le filename
  rw [staticHeader, List.flatten_append, List.length_append]
  simp [maxBuf, crlf] at hstat ⊢
  omega

/-- **A program** is run exactly if the client takes the lines before its output and the calls succeed. -/
theorem serveDynamic_iff (h : InRange stats arrivalTime dispatchInterval) :
    (∃ sink', (requestServeDynamic os sink filename cgiargs stats arrivalTime dispatchInterval).out = .ret sink') ↔
      sink.Takes (dynamicHeader stats arrivalTime dispatchInterval).flatten.length ∧ os.fork ∧ os.waitpid := by
  have hfit := length_dynamicHeader h
  set header := dynamicHeader stats arrivalTime dispatchInterval with hheader
  have hls : header ≠ [] := by simp [hheader, dynamicHeader]
  have ho := ((format_spec hls).ret hfit).1
  have hsends := Sends.writen sink header.flatten
  rw [requestServeDynamic, ← dynamicHeader, ← hheader, out_bind, log_out, Outcome.ret_bind, out_bind, ho,
    Outcome.ret_bind, out_bind]
  by_cases htakes : sink.Takes header.flatten.length
  · obtain ⟨sink₁, hw, -⟩ := hsends.ret htakes
    rw [hw, Outcome.ret_bind, and_iff_right htakes]
    cases os.fork <;> cases os.waitpid <;> simp [check]
  · rw [hsends.exit htakes, Outcome.exit_bind]
    exact iff_of_false (fun ⟨_, he⟩ => by cases he) fun h => htakes h.1

theorem within_serveDynamic (h : InRange stats arrivalTime dispatchInterval) :
    Within Event.InBounds (requestServeDynamic os sink filename cgiargs stats arrivalTime dispatchInterval) := by
  have hls : dynamicHeader stats arrivalTime dispatchInterval ≠ [] := by simp [dynamicHeader]
  have happend := ((format_spec hls).ret (length_dynamicHeader h)).2
  unfold requestServeDynamic
  refine Within.bind (within_log.mpr trivial) fun _ _ => Within.bind happend fun buf _ => ?_
  refine Within.bind (Sends.writen sink buf).within fun sink₁ _ => Within.bind (within_check _) fun _ _ => ?_
  exact Within.bind (within_log.mpr trivial) fun _ _ => Within.bind (within_check _) fun _ _ => Within.pure _

/-- **A file** is sent exactly if the calls succeed and the client takes the lines and the contents. -/
theorem serveStatic_iff (h : InRange stats arrivalTime dispatchInterval) (hsize : filesize.natAbs ≤ 2 ^ 31) :
    (∃ sink', (requestServeStatic os sink filename filesize stats arrivalTime dispatchInterval).out = .ret sink') ↔
      os.openFile filename ∧ (os.mmap filename (toSize filesize)).isSome ∧ os.closeFile filename ∧
        sink.Takes ((staticHeader filename filesize stats arrivalTime dispatchInterval).flatten.length +
          toSize filesize) ∧ os.munmap filename (toSize filesize) := by
  have hfit : (staticHeader filename filesize stats arrivalTime dispatchInterval).flatten.length < maxBuf :=
    length_staticHeader h hsize
  set header := staticHeader filename filesize stats arrivalTime dispatchInterval with hheader
  have hls : header ≠ [] := by simp [hheader, staticHeader]
  have ho := ((format_spec hls).ret hfit).1
  have htype : (fileType filename).length < maxLine := (length_fileType_le filename).trans_lt (by decide)
  rw [requestServeStatic, out_bind, log_out, Outcome.ret_bind, requestGetFiletype_eq, out_bind, put_ret htype,
    Outcome.ret_bind, out_bind]
  cases hopen : os.openFile filename with
  | false => simp [check]
  | true =>
    rw [check_ret.mpr rfl, Outcome.ret_bind]
    cases hmap : os.mmap filename (toSize filesize) with
    | none => simp
    | some srcp =>
      cases hclose : os.closeFile filename with
      | false => simp [check]
      | true =>
        dsimp only
        rw [out_bind, check_ret.mpr rfl, Outcome.ret_bind, ← staticHeader, ← hheader, out_bind, ho, Outcome.ret_bind,
          out_bind]
        simp only [Option.isSome_some, true_and]
        by_cases hlines : sink.Takes header.flatten.length
        · obtain ⟨sink₁, hw₁, hroom₁, -⟩ := (Sends.writen sink header.flatten).ret hlines
          rw [hw₁, Outcome.ret_bind, out_bind, Sink.takes_add hroom₁, and_iff_right hlines]
          have hlen : sink₁.Takes srcp.1.length ↔ sink₁.Takes (toSize filesize) := by rw [srcp.2]
          by_cases hfile : sink₁.Takes srcp.1.length
          · obtain ⟨sink₂, hw₂, -⟩ := (Sends.writen sink₁ srcp.1).ret hfile
            rw [hw₂, Outcome.ret_bind, and_iff_right (hlen.mp hfile)]
            cases os.munmap filename (toSize filesize) <;> simp [check]
          · rw [(Sends.writen sink₁ srcp.1).exit hfile]
            exact iff_of_false (fun ⟨_, he⟩ => by cases he) fun h => hfile (hlen.mpr h.1)
        · rw [(Sends.writen sink header.flatten).exit hlines]
          refine iff_of_false (fun ⟨_, he⟩ => by cases he) fun h => hlines ?_
          exact fun r hr => (Nat.le_add_right _ _).trans (h.1 r hr)

theorem within_serveStatic (h : InRange stats arrivalTime dispatchInterval) (hsize : filesize.natAbs ≤ 2 ^ 31) :
    Within Event.InBounds (requestServeStatic os sink filename filesize stats arrivalTime dispatchInterval) := by
  have hls : staticHeader filename filesize stats arrivalTime dispatchInterval ≠ [] := by simp [staticHeader]
  have happend := ((format_spec hls).ret (length_staticHeader h hsize)).2
  have htype : (fileType filename).length < maxLine := (length_fileType_le filename).trans_lt (by decide)
  unfold requestServeStatic
  rw [requestGetFiletype_eq]
  refine Within.bind (within_log.mpr trivial) fun _ _ => Within.bind (within_put.mpr htype) fun filetype hf => ?_
  obtain rfl : fileType filename = filetype := Outcome.ret.inj ((put_ret htype).symm.trans hf)
  refine Within.bind (within_check _) fun _ _ => ?_
  cases os.mmap filename (toSize filesize) with
  | none => exact Within.lift _
  | some srcp =>
    refine Within.bind (within_check _) fun _ _ => Within.bind happend fun buf _ => ?_
    refine Within.bind (Sends.writen sink buf).within fun sink₁ _ => ?_
    refine Within.bind (Sends.writen sink₁ srcp).within fun sink₂ _ => ?_
    exact Within.bind (within_check _) fun _ _ => Within.pure _

end Serve

end Texts

end OsHomework.Server
