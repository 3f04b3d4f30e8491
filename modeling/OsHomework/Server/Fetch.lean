import OsHomework.Lib.Words
import OsHomework.Server.Client
import OsHomework.Server.Isolation
import OsHomework.Server.Reported

/-!
# From the client to the server and back

`client.c` and `request.c` on the two ends of a connection, which may cut what is sent in any way.

* `Reply`: a header and a body, `errorReply`, `fileReply`;
* `Answers`: the reply to a request for a file, and the counters after it;
* `Yields x a text`: `x` returns `a` and sends `text`. **`requestHandle_yields`**: the server replies to the
  request that the client has sent;
* **`fetch`**: the client prints the header and the body of the reply.
-/

set_option autoImplicit false

namespace OsHomework.Server

open Logged

/-! ## Replies -/

/-- A header without its empty line, and a body. -/
structure Reply where
  header : List (List Char)
  body : List Char

/-- A reply as it is sent. -/
def Reply.text (reply : Reply) : List Char := reply.header.flatten ++ (crlf ++ reply.body)

section Reply

variable (stats : Stats) (arrivalTime dispatchInterval : ℚ)

/-- An error page. -/
def errorReply (cause errnum shortmsg longmsg : List Char) : Reply where
  header := ["HTTP/1.0 ".toList ++ errnum ++ " ".toList ++ shortmsg ++ crlf,
    "Content-Type: text/html\r\n".toList,
    "Content-Length: ".toList ++ decimal (errorBody cause errnum shortmsg longmsg).flatten.length ++ crlf] ++
    statLines stats arrivalTime dispatchInterval crlf
  body := (errorBody cause errnum shortmsg longmsg).flatten

/-- A file. -/
def fileReply (filename contents : List Char) : Reply where
  header := ["HTTP/1.0 200 OK\r\n".toList, "Server: OS-HW3 Web Server\r\n".toList,
    "Content-Length: ".toList ++ decimal contents.length ++ crlf,
    "Content-Type: ".toList ++ fileType filename ++ crlf] ++
    statLines stats arrivalTime dispatchInterval crlf
  body := contents

/-- What a program writes, after the lines of the server. -/
def programReply (program : Reply) : Reply where
  header := dynamicHeader stats arrivalTime dispatchInterval ++ program.header
  body := program.body

/-- **The reply** to a static or dynamic request for `filename`, and the counters after it. `output` is what a program
writes to the connection. -/
inductive Answers (os : Os) (output : List Char → List Char → List Char) (filename cgiargs : List Char) :
    Bool → Stats → Reply → Prop where
  | missing {static : Bool} (hstat : os.stat filename = none)
      (hfits : ErrorFits filename "404".toList "Not found".toList "OS-HW3 Server could not find this file".toList) :
      Answers os output filename cgiargs static stats
        (errorReply stats arrivalTime dispatchInterval filename "404".toList "Not found".toList
          "OS-HW3 Server could not find this file".toList)
  | unreadable {sbuf : FileStat} (hstat : os.stat filename = some sbuf) (hmode : ¬ sbuf.isReg ∨ ¬ sbuf.irusr)
      (hfits : ErrorFits filename "403".toList "Forbidden".toList "OS-HW3 Server could not read this file".toList) :
      Answers os output filename cgiargs true stats
        (errorReply stats arrivalTime dispatchInterval filename "403".toList "Forbidden".toList
          "OS-HW3 Server could not read this file".toList)
  | unrunnable {sbuf : FileStat} (hstat : os.stat filename = some sbuf) (hmode : ¬ sbuf.isReg ∨ ¬ sbuf.ixusr)
      (hfits : ErrorFits filename "403".toList "Forbidden".toList
        "OS-HW3 Server could not run this CGI program".toList) :
      Answers os output filename cgiargs false stats
        (errorReply stats arrivalTime dispatchInterval filename "403".toList "Forbidden".toList
          "OS-HW3 Server could not run this CGI program".toList)
  -- none of the calls fails
  | file {sbuf : FileStat} {contents : List Char} (hstat : os.stat filename = some sbuf) (hreg : sbuf.isReg)
      (hirusr : sbuf.irusr) (hsize : sbuf.stSize = contents.length) (hlen : (contents.length : ℤ) ≤ intMax)
      (hopen : os.openFile filename) (hmap : os.mmap filename contents.length = some ⟨contents, rfl⟩)
      (hclose : os.closeFile filename) (hunmap : os.munmap filename contents.length)
      (hcount : stats.handlerThreadStaticReqCount < intMax) :
      Answers os output filename cgiargs true
        { stats with handlerThreadStaticReqCount := stats.handlerThreadStaticReqCount + 1 }
        (fileReply { stats with handlerThreadStaticReqCount := stats.handlerThreadStaticReqCount + 1 }
          arrivalTime dispatchInterval filename contents)
  | program {sbuf : FileStat} {program : Reply} (hstat : os.stat filename = some sbuf) (hreg : sbuf.isReg)
      (hixusr : sbuf.ixusr) (hfork : os.fork) (hwaitpid : os.waitpid) (houtput : output filename cgiargs = program.text)
      (hheader : ∀ l ∈ program.header, HeaderLine l) (hcount : stats.handlerThreadDynamicReqCount < intMax) :
      Answers os output filename cgiargs false
        { stats with handlerThreadDynamicReqCount := stats.handlerThreadDynamicReqCount + 1 }
        (programReply { stats with handlerThreadDynamicReqCount := stats.handlerThreadDynamicReqCount + 1 }
          arrivalTime dispatchInterval program)

end Reply

section Texts

variable {stats : Stats} {arrivalTime dispatchInterval : ℚ}

theorem statLines_crlf : (statLines stats arrivalTime dispatchInterval (crlf ++ crlf)).flatten =
    (statLines stats arrivalTime dispatchInterval crlf).flatten ++ crlf := by
  simp [statLines]

theorem errorReply_text (cause errnum shortmsg longmsg : List Char) :
    (errorReply stats arrivalTime dispatchInterval cause errnum shortmsg longmsg).text =
      errorText cause errnum shortmsg longmsg stats arrivalTime dispatchInterval := by
  simp only [Reply.text, errorReply, errorText, errorHeader, List.flatten_append, statLines_crlf, List.append_assoc]

theorem fileReply_text (filename contents : List Char) :
    (fileReply stats arrivalTime dispatchInterval filename contents).text =
      (staticHeader filename contents.length stats arrivalTime dispatchInterval).flatten ++ contents := by
  simp only [Reply.text, fileReply, staticHeader, List.flatten_append, statLines_crlf, List.append_assoc]

theorem programReply_text (program : Reply) : (programReply stats arrivalTime dispatchInterval program).text =
    (dynamicHeader stats arrivalTime dispatchInterval).flatten ++ program.text := by
  simp only [Reply.text, programReply, List.flatten_append, List.append_assoc]

/-! ### The lines of the headers -/

/-- No character ends a line or a string. -/
def Clean (s : List Char) : Prop := ∀ c ∈ s, c ≠ '\n' ∧ c ≠ '\r' ∧ c ≠ '\x00'

instance (s : List Char) : Decidable (Clean s) := List.decidableBAll _ s

theorem Clean.append {a b : List Char} (ha : Clean a) (hb : Clean b) : Clean (a ++ b) :=
  List.forall_mem_append.mpr ⟨ha, hb⟩

theorem clean_digits (n : ℕ) : Clean (Nat.toDigits 10 n) := by
  intro c h
  have := Nat.isDigit_of_mem_toDigits (by decide) (by decide) h
  refine ⟨?_, ?_, ?_⟩ <;> rintro rfl <;> cases this

theorem clean_decimal (x : ℤ) : Clean (decimal x) := by
  unfold decimal
  split_ifs
  · exact List.forall_mem_cons.mpr ⟨by decide, clean_digits _⟩
  · exact clean_digits _

theorem clean_fixed (digits : ℕ) (q : ℚ) : Clean (fixed digits q) := by
  have hsign : Clean (if q < 0 then ['-'] else []) := by split_ifs <;> decide
  have hzeros : ∀ n, Clean (List.replicate n '0') := by
    intro n c hc
    rw [List.eq_of_mem_replicate hc]
    decide
  exact (hsign.append (clean_digits _)).append
    (List.forall_mem_cons.mpr ⟨by decide, (hzeros _).append (clean_digits _)⟩)

theorem clean_fileType (filename : List Char) : Clean (fileType filename) := by
  unfold fileType
  split_ifs <;> decide

theorem scanLength_other {name : List Char} (k : ℕ) (hk : k ≤ "Content-Length:".toList.length ∧ k ≤ name.length)
    (hname : "Content-Length:".toList.take k ≠ name.take k) (rest : List Char) :
    scanLength (name ++ rest) = .ret none := by
  refine if_neg fun ⟨t, ht⟩ => hname ?_
  have htake := congrArg (List.take k) ht
  rwa [List.take_append_of_le_length hk.1, List.take_append_of_le_length hk.2] at htake

theorem headerLine {l : List Char} (hl : Clean l) (hlen : (l ++ crlf).length < maxLine) (hne : l ≠ [])
    (hscan : ∃ length, scanLength (l ++ crlf) = .ret length) : HeaderLine (l ++ crlf) where
  ends := ⟨l ++ ['\r'], by simp [crlf], by
    rw [List.mem_append, not_or]
    exact ⟨fun h => (hl _ h).1 rfl, by decide⟩⟩
  length_lt := hlen
  notMem_nul := by
    rw [List.mem_append, not_or]
    exact ⟨fun h => (hl _ h).2.2 rfl, by decide⟩
  ne_crlf := fun h => hne (List.append_left_eq_self.mp h)
  scanLength_ret := hscan

theorem headerLine_named {name value : List Char} (k : ℕ)
    (hk : k ≤ "Content-Length:".toList.length ∧ k ≤ name.length)
    (hname : "Content-Length:".toList.take k ≠ name.take k) (hne : name ≠ []) (hclean : Clean name)
    (hvalue : Clean value) (hlen : (name ++ value ++ crlf).length < maxLine) : HeaderLine (name ++ value ++ crlf) := by
  refine headerLine (hclean.append hvalue) hlen (List.append_ne_nil_of_left_ne_nil hne value) ⟨none, ?_⟩
  rw [List.append_assoc]
  exact scanLength_other k hk hname _

theorem headerLine_length {n : ℕ} (hn : (n : ℤ) ≤ intMax) :
    HeaderLine ("Content-Length: ".toList ++ decimal n ++ crlf) := by
  have hlen := length_decimal_le (x := n) (k := 10) (by norm_num) (by
    unfold intMax at hn
    omega)
  refine headerLine (Clean.append (by decide) (clean_decimal _)) ?_ (by simp) ⟨some n, scanLength_decimal ⟨?_, hn⟩⟩
  · simp only [List.length_append, maxLine]
    have h₁ : "Content-Length: ".toList.length = 16 := by decide
    have h₂ : crlf.length = 2 := rfl
    omega
  · unfold intMax
    omega

theorem headerLine_stat (h : InRange stats arrivalTime dispatchInterval) :
    ∀ l ∈ statLines stats arrivalTime dispatchInterval crlf, HeaderLine l := by
  have hlen := (statLines_length h crlf (by decide)).1
  intro l hl
  have hl' := hlen l hl
  simp only [statLines, List.mem_cons, List.not_mem_nil, or_false] at hl
  rcases hl with rfl | rfl | rfl | rfl | rfl | rfl
  · exact headerLine_named 1 (by decide) (by decide) (by decide) (by decide) (clean_fixed 6 _) hl'
  · exact headerLine_named 1 (by decide) (by decide) (by decide) (by decide) (clean_fixed 6 _) hl'
  all_goals exact headerLine_named 1 (by decide) (by decide) (by decide) (by decide) (clean_decimal _) hl'

theorem headerLine_ok : HeaderLine "HTTP/1.0 200 OK\r\n".toList :=
  headerLine (l := "HTTP/1.0 200 OK".toList) (by decide) (by decide) (by decide) ⟨none, by decide⟩

theorem headerLine_server : HeaderLine "Server: OS-HW3 Web Server\r\n".toList :=
  headerLine (l := "Server: OS-HW3 Web Server".toList) (by decide) (by decide) (by decide) ⟨none, by decide⟩

theorem headerLine_file (h : InRange stats arrivalTime dispatchInterval) {filename contents : List Char}
    (hlen : (contents.length : ℤ) ≤ intMax) :
    ∀ l ∈ (fileReply stats arrivalTime dispatchInterval filename contents).header, HeaderLine l := by
  intro l hl
  rcases List.mem_append.mp hl with hl | hl
  · simp only [List.mem_cons, List.not_mem_nil, or_false] at hl
    rcases hl with rfl | rfl | rfl | rfl
    · exact headerLine_ok
    · exact headerLine_server
    · exact headerLine_length hlen
    · refine headerLine_named 9 (by decide) (by decide) (by decide) (by decide) (clean_fileType filename) ?_
      have htype := length_fileType_le filename
      have h₁ : "Content-Type: ".toList.length = 14 := by decide
      have h₂ : crlf.length = 2 := rfl
      simp only [List.length_append, maxLine]
      omega
  · exact headerLine_stat h l hl

theorem headerLine_dynamic (h : InRange stats arrivalTime dispatchInterval) :
    ∀ l ∈ dynamicHeader stats arrivalTime dispatchInterval, HeaderLine l := by
  intro l hl
  rcases List.mem_append.mp hl with hl | hl
  · simp only [List.mem_cons, List.not_mem_nil, or_false] at hl
    rcases hl with rfl | rfl
    · exact headerLine_ok
    · exact headerLine_server
  · exact headerLine_stat h l hl

theorem headerLine_error (h : InRange stats arrivalTime dispatchInterval)
    {cause errnum shortmsg longmsg : List Char} (hfits : ErrorFits cause errnum shortmsg longmsg)
    (herrnum : Clean errnum) (hshortmsg : Clean shortmsg) (hshort : errnum.length + shortmsg.length ≤ 100) :
    ∀ l ∈ (errorReply stats arrivalTime dispatchInterval cause errnum shortmsg longmsg).header, HeaderLine l := by
  intro l hl
  rcases List.mem_append.mp hl with hl | hl
  · simp only [List.mem_cons, List.not_mem_nil, or_false] at hl
    rcases hl with rfl | rfl | rfl
    · have hvalue : Clean (errnum ++ " ".toList ++ shortmsg) := (herrnum.append (by decide)).append hshortmsg
      have hline : HeaderLine ("HTTP/1.0 ".toList ++ (errnum ++ " ".toList ++ shortmsg) ++ crlf) :=
        headerLine_named 1 (by decide) (by decide) (by decide) (by decide) hvalue (by simp [crlf, maxLine]; omega)
      rwa [← List.append_assoc, ← List.append_assoc] at hline
    · exact headerLine (l := "Content-Type: text/html".toList) (by decide) (by decide) (by decide) ⟨none, by decide⟩
    · refine headerLine_length ?_
      unfold ErrorFits maxBuf at hfits
      unfold intMax
      omega
  · exact headerLine_stat h l hl

/-- **The client prints a reply** as its header and its body. -/
theorem Answers.printed {os : Os} {output : List Char → List Char → List Char} {filename cgiargs : List Char}
    {static : Bool} {stats' : Stats} {reply : Reply}
    (h : Answers stats arrivalTime dispatchInterval os output filename cgiargs static stats' reply)
    (hrange : InRange stats' arrivalTime dispatchInterval) (hbody : '\x00' ∉ reply.body) :
    Prints (shown (linesOf '\n' (maxLine - 1) reply.text)) (headerText reply.header ++ reply.body) := by
  refine shown_response ?_ hbody
  cases h with
  | missing _ hfits => exact headerLine_error hrange hfits (by decide) (by decide) (by decide)
  | unreadable _ _ hfits => exact headerLine_error hrange hfits (by decide) (by decide) (by decide)
  | unrunnable _ _ hfits => exact headerLine_error hrange hfits (by decide) (by decide) (by decide)
  | file _ _ _ _ hlen => exact headerLine_file hrange hlen
  | program _ _ _ _ _ _ hheader =>
    intro l hl
    rcases List.mem_append.mp hl with hl | hl
    · exact headerLine_dynamic hrange l hl
    · exact hheader l hl

end Texts

/-! ## The server -/

/-- What the client gets: what the server sends, and what the programs write that it runs. -/
def received (output : List Char → List Char → List Char) (log : List Event) : List Char :=
  (log.filterMap fun e => match e with
    | .send s => some s
    | .exec filename cgiargs => some (output filename cgiargs)
    | _ => none).flatten

/-- No program is run. -/
def Quiet {α : Type} (x : Logged Event α) : Prop := Within (fun e => ∀ filename cgiargs, e ≠ .exec filename cgiargs) x

/-- `x` returns `a`, and the client gets `text`. -/
def Yields (output : List Char → List Char → List Char) {α : Type} (x : Logged Event α) (a : α) (text : List Char) :
    Prop :=
  x.out = .ret a ∧ received output x.log = text

section Quiet

variable {α β : Type} {x : Logged Event α} {f : α → Logged Event β} {sink : Sink} {stats : Stats}
  {arrivalTime dispatchInterval : ℚ}

theorem Quiet.bind (hx : Quiet x) (hf : ∀ a, Quiet (f a)) : Quiet (x >>= f) := Within.bind hx fun a _ => hf a

theorem Quiet.ite {p : Prop} [Decidable p] {y : Logged Event α} (hx : Quiet x) (hy : Quiet y) :
    Quiet (if p then x else y) :=
  Within.ite (fun _ => hx) fun _ => hy

theorem Quiet.pure (a : α) : Quiet (pure a) := Within.pure a

theorem Quiet.lift (o : Outcome α) : Quiet (Logged.lift o) := Within.lift o

theorem Quiet.serve (kind : Kind) : Quiet (log (.serve kind)) := by
  intro e he filename cgiargs
  rw [List.mem_singleton.mp he]
  simp

theorem Quiet.put (size : ℕ) (s : List Char) : Quiet (put size s) := by
  intro e he filename cgiargs
  rw [List.mem_singleton.mp he]
  simp

theorem Quiet.writen (sink : Sink) (s : List Char) : Quiet (writen sink s) := by
  intro e he filename cgiargs
  rw [List.mem_singleton.mp he]
  simp

theorem Quiet.append (size : ℕ) (buf : List Char) (ls : List (List Char)) : Quiet (append size buf ls) := by
  induction ls generalizing buf with
  | nil => exact .pure buf
  | cons l ls ih => exact .bind (.put size _) fun buf => ih buf

theorem Quiet.sendLines (sink : Sink) (ls : List (List Char)) : Quiet (sendLines sink ls) := by
  induction ls generalizing sink with
  | nil => exact .pure sink
  | cons l ls ih => exact .bind (.put maxLine l) fun buf => .bind (.writen sink buf) fun sink => ih sink

theorem Quiet.lastChar (uri : List Char) : Quiet (lastChar uri) := by
  intro e he filename cgiargs
  rw [List.mem_singleton.mp he]
  simp

theorem Quiet.requestParseURI (size : ℕ) (uri cgiargs : List Char) : Quiet (requestParseURI size uri cgiargs) := by
  unfold OsHomework.Server.requestParseURI
  refine .ite (.bind (.put _ _) fun _ => .pure _) (.ite ?_ (.ite ?_ ?_))
  · refine .bind (.put _ _) fun _ => .bind (.put _ _) fun filename => .bind (.lastChar uri) fun _ => .ite ?_ (.pure _)
    exact .bind (.put _ _) fun _ => .pure _
  · exact .bind (.put _ _) fun _ => .bind (.put _ _) fun _ => .pure _
  · exact .bind (.put _ _) fun _ => .bind (.put _ _) fun _ => .pure _

theorem Quiet.requestError (cause errnum shortmsg longmsg : List Char) :
    Quiet (requestError sink cause errnum shortmsg longmsg stats arrivalTime dispatchInterval) :=
  .bind (.serve _) fun _ => .bind (.append _ _ _) fun body => .bind (.sendLines _ _) fun sink => .writen sink body

theorem Quiet.requestServeStatic (os : Os) (filename : List Char) (filesize : ℤ) :
    Quiet (requestServeStatic os sink filename filesize stats arrivalTime dispatchInterval) := by
  unfold OsHomework.Server.requestServeStatic
  rw [requestGetFiletype_eq]
  refine .bind (.serve _) fun _ => .bind (.put _ _) fun filetype => .bind (.lift _) fun _ => ?_
  cases os.mmap filename (toSize filesize) with
  | none => exact .lift _
  | some srcp =>
    refine .bind (.lift _) fun _ => .bind (.append _ _ _) fun buf => .bind (.writen sink buf) fun sink => ?_
    exact .bind (.writen sink _) fun sink => .bind (.lift _) fun _ => .pure sink

end Quiet

section Yields

variable {α β : Type} {x : Logged Event α} {f : α → Logged Event β} {a : α} {b : β} {text text' s : List Char}
  {output : List Char → List Char → List Char}

theorem received_append (log log' : List Event) :
    received output (log ++ log') = received output log ++ received output log' := by
  rw [received, List.filterMap_append, List.flatten_append]
  rfl

/-- If no program is run, the client gets what is sent. -/
theorem received_eq_sent (h : Quiet x) : received output x.log = sent x.log := by
  unfold received sent
  refine congrArg _ (List.filterMap_congr fun e he => ?_)
  cases e with
  | exec filename cgiargs => exact absurd rfl (h _ he filename cgiargs)
  | _ => rfl

theorem Yields.bind (hx : Yields output x a text) (hf : Yields output (f a) b text') :
    Yields output (x >>= f) b (text ++ text') := by
  refine ⟨by rw [out_bind, hx.1]; exact hf.1, ?_⟩
  rw [log_bind_ret hx.1, received_append, hx.2, hf.2]

theorem Yields.after (hx : Yields output x a []) (hf : Yields output (f a) b text) : Yields output (x >>= f) b text :=
  hx.bind hf

theorem Yields.pure (a : α) : Yields output (pure a) a [] := ⟨rfl, rfl⟩

theorem Yields.lift {o : Outcome α} (h : o = .ret a) : Yields output (Logged.lift o) a [] := ⟨h, rfl⟩

theorem Yields.put {size : ℕ} (h : s.length < size) : Yields output (put size s) s [] := ⟨put_ret h, rfl⟩

theorem Yields.of_quiet (hq : Quiet x) (ho : x.out = .ret a) (hs : sent x.log = text) : Yields output x a text :=
  ⟨ho, (received_eq_sent hq).trans hs⟩

theorem Yields.then_pure (hx : Yields output x a text) (b : β) : Yields output (x >>= fun _ => Pure.pure b) b text := by
  have hall : Yields output (x >>= fun _ => Pure.pure b) b (text ++ []) := hx.bind (.pure b)
  rwa [List.append_nil] at hall

theorem Sends.yields {x : Logged Event Sink} {sink : Sink} (h : Sends x sink text) (hq : Quiet x)
    (hroom : sink.Takes text.length) (stats : Stats) :
    Yields output (x >>= fun _ => Pure.pure stats) stats text := by
  obtain ⟨sink', ho, -, hsent⟩ := h.ret hroom
  exact (Yields.of_quiet hq ho hsent).then_pure stats

end Yields

section Handle

variable {os : Os} {sink : Sink} {filename contents cgiargs : List Char} {stats stats' : Stats}
  {arrivalTime dispatchInterval : ℚ} {reply : Reply} {output : List Char → List Char → List Char} {static : Bool}

theorem toInt_length {n : ℕ} (h : (n : ℤ) ≤ intMax) : toInt n = n := by
  unfold intMax at h
  exact Int.bmod_eq_of_le_mul_two (by norm_num; omega) (by norm_num; omega)

theorem toSize_length {n : ℕ} (h : (n : ℤ) ≤ intMax) : toSize n = n := by
  unfold intMax at h
  unfold toSize
  omega

/-- The size of a file does not change on its way to `mmap`. -/
theorem mmap_of_length {n : ℕ} (hn : n = contents.length)
    (hmap : os.mmap filename contents.length = some ⟨contents, rfl⟩) :
    os.mmap filename n = some ⟨contents, hn.symm⟩ := by
  subst hn
  exact hmap

/-- **A file is sent** as a whole if the calls succeed. -/
theorem serveStatic_sends {filesize : ℤ} {srcp : {s : List Char // s.length = toSize filesize}}
    (h : InRange stats arrivalTime dispatchInterval) (hsize : filesize.natAbs ≤ 2 ^ 31)
    (hopen : os.openFile filename) (hmap : os.mmap filename (toSize filesize) = some srcp)
    (hclose : os.closeFile filename) (hunmap : os.munmap filename (toSize filesize)) :
    Sends (requestServeStatic os sink filename filesize stats arrivalTime dispatchInterval) sink
      ((staticHeader filename filesize stats arrivalTime dispatchInterval).flatten ++ srcp.1) := by
  have htype : (fileType filename).length < maxLine := (length_fileType_le filename).trans_lt (by decide)
  unfold requestServeStatic
  rw [requestGetFiletype_eq, hmap, hopen, hclose, hunmap]
  refine .after (within_log.mpr trivial) rfl rfl (.put htype (.after (Within.lift _) rfl rfl ?_))
  refine .after (Within.lift _) rfl rfl (.append (by simp) (length_staticHeader h hsize) ?_)
  refine .bind (.writen sink _) fun sink₁ _ => ?_
  have hfile := Sends.bind (.writen sink₁ srcp.1) fun sink₂ _ =>
    Sends.after (y := check true) (g := fun _ => pure sink₂) (Within.lift _) rfl rfl (.pure sink₂)
  rwa [List.append_nil] at hfile

/-- **A program is run** after the lines of the server. -/
theorem serveDynamic_yields (output : List Char → List Char → List Char) (filename cgiargs : List Char)
    (h : InRange stats arrivalTime dispatchInterval)
    (hroom : sink.Takes (dynamicHeader stats arrivalTime dispatchInterval).flatten.length)
    (hfork : os.fork) (hwaitpid : os.waitpid) : ∃ sink', Yields output
      (requestServeDynamic os sink filename cgiargs stats arrivalTime dispatchInterval) sink'
      ((dynamicHeader stats arrivalTime dispatchInterval).flatten ++ output filename cgiargs) := by
  have hls : dynamicHeader stats arrivalTime dispatchInterval ≠ [] := by simp [dynamicHeader]
  have hfit := length_dynamicHeader h
  obtain ⟨sink', hw, -, hsent⟩ := (Sends.writen sink _).ret hroom
  have hformat : Yields output (append maxLine [] (dynamicHeader stats arrivalTime dispatchInterval))
      (dynamicHeader stats arrivalTime dispatchInterval).flatten [] :=
    .of_quiet (.append _ _ _) ((format_spec hls).ret hfit).1 (append_silent hfit)
  have hwrite : Yields output (writen sink (dynamicHeader stats arrivalTime dispatchInterval).flatten) sink'
      (dynamicHeader stats arrivalTime dispatchInterval).flatten := .of_quiet (.writen _ _) hw hsent
  have hexec : Yields output (log (.exec filename cgiargs)) () (output filename cgiargs) :=
    ⟨rfl, List.append_nil _⟩
  refine ⟨sink', .after ⟨rfl, rfl⟩ (.after hformat (.bind hwrite (.after (.lift (if_pos hfork)) ?_)))⟩
  have hlast := hexec.bind (f := fun _ => check os.waitpid >>= fun _ => pure sink')
    (.after (.lift (if_pos hwaitpid)) (.pure sink'))
  rwa [List.append_nil] at hlast

/-- From the `stat` on. -/
theorem serveFile_yields
    (h : Answers stats arrivalTime dispatchInterval os output filename cgiargs static stats' reply)
    (hrange : InRange stats' arrivalTime dispatchInterval) (hroom : sink.Takes reply.text.length) :
    Yields output (serveFile os sink static filename cgiargs stats arrivalTime dispatchInterval) stats' reply.text := by
  unfold serveFile
  cases h with
  | missing hstat hfits =>
    rw [hstat]
    rw [errorReply_text] at hroom ⊢
    exact (requestError_sends hrange (by decide) hfits).yields (.requestError _ _ _ _) hroom _
  | unreadable hstat hmode hfits =>
    rw [hstat]
    dsimp only
    rw [if_pos rfl, if_pos hmode]
    rw [errorReply_text] at hroom ⊢
    exact (requestError_sends hrange (by decide) hfits).yields (.requestError _ _ _ _) hroom _
  | unrunnable hstat hmode hfits =>
    rw [hstat]
    dsimp only
    rw [if_neg Bool.false_ne_true, if_pos hmode]
    rw [errorReply_text] at hroom ⊢
    exact (requestError_sends hrange (by decide) hfits).yields (.requestError _ _ _ _) hroom _
  | @file sbuf contents hstat hreg hirusr hsize hlen hopen hmap hclose hunmap hcount =>
    rw [hstat]
    dsimp only
    rw [if_pos rfl, if_neg (by simp [hreg, hirusr]), increment_of_lt hcount, lift_ret_bind, hsize,
      toInt_length hlen]
    rw [fileReply_text] at hroom ⊢
    have hmap' := mmap_of_length (toSize_length hlen) hmap
    have hunmap' : os.munmap filename (toSize contents.length) := by rwa [toSize_length hlen]
    have hint : (contents.length : ℤ).natAbs ≤ 2 ^ 31 := by
      unfold intMax at hlen
      omega
    exact (serveStatic_sends hrange hint hopen hmap' hclose hunmap').yields (.requestServeStatic _ _ _) hroom _
  | @program sbuf program hstat hreg hixusr hfork hwaitpid houtput hheader hcount =>
    rw [hstat]
    dsimp only
    rw [if_neg Bool.false_ne_true, if_neg (by simp [hreg, hixusr]), increment_of_lt hcount, lift_ret_bind]
    rw [programReply_text] at hroom ⊢
    rw [List.length_append] at hroom
    obtain ⟨sink', hserve⟩ := serveDynamic_yields output filename cgiargs hrange
      (fun r hr => (Nat.le_add_right _ _).trans (hroom r hr)) hfork hwaitpid
    rw [houtput] at hserve
    exact hserve.then_pure _

/-! ### The request line -/

/-- The line of a request that names the file. -/
def requestLine (uri : List Char) : List Char := "GET ".toList ++ uri ++ " HTTP/1.1\n".toList

def hostLine (hostname : List Char) : List Char := "host: ".toList ++ hostname ++ "\n\r\n".toList

variable {uri hostname : List Char} {stack : Stack}

theorem clientSend_sent {sink' : Sink} (h : (clientSend sink uri (some hostname)).out = .ret sink') :
    (requestLine uri ++ hostLine hostname).length < maxLine ∧
      sent (clientSend sink uri (some hostname)).log = requestLine uri ++ hostLine hostname := by
  have hflat : [requestLine uri, hostLine hostname].flatten = requestLine uri ++ hostLine hostname := by simp
  have hspec : Defined (append maxLine [] [requestLine uri, hostLine hostname])
      ((requestLine uri ++ hostLine hostname).length < maxLine) (requestLine uri ++ hostLine hostname) := by
    rw [← hflat]
    exact append_spec (List.cons_ne_nil _ _) []
  change (append maxLine [] [requestLine uri, hostLine hostname] >>= fun buf => writen sink buf).out = _ at h
  by_cases hfit : (requestLine uri ++ hostLine hostname).length < maxLine
  · refine ⟨hfit, ?_⟩
    have hret := (hspec.ret hfit).1
    have hsilent : sent (append maxLine [] [requestLine uri, hostLine hostname]).log = [] :=
      append_silent (by rwa [List.nil_append, hflat])
    show sent (append maxLine [] [requestLine uri, hostLine hostname] >>= fun buf => writen sink buf).log = _
    rw [log_bind_ret hret, sent_append, hsilent]
    exact List.append_nil _
  · rw [out_bind, (hspec.ub hfit).1] at h
    cases h

theorem notSpace_of_all {s : List Char} (h : s.all fun c => !isSpace c) : ∀ c ∈ s, isSpace c = false := by
  simpa using h

/-- A word of a request line. -/
def IsWord (s : List Char) : Prop := s ≠ [] ∧ ∀ c ∈ s, isSpace c = false ∧ c ≠ '\x00'

instance (s : List Char) : Decidable (IsWord s) :=
  @instDecidableAnd _ _ _ (List.decidableBAll (fun c => isSpace c = false ∧ c ≠ '\x00') s)

theorem words_eq (s : List Char) : words s = wordsBy isSpace s :=
  List.filter_congr fun w _ => by cases w <;> rfl

theorem words_requestLine (h : IsWord uri) : words (cstr (requestLine uri)) =
    ["GET".toList, uri, "HTTP/1.1".toList] := by
  have hnul : '\x00' ∉ requestLine uri := by
    intro hmem
    rcases List.mem_append.mp hmem with hmem | hmem
    · rcases List.mem_append.mp hmem with hmem | hmem
      · exact absurd hmem (by decide)
      · exact (h.2 _ hmem).2 rfl
    · exact absurd hmem (by decide)
  have hget : "GET ".toList = "GET".toList ++ [' '] := by decide
  have hhttp : " HTTP/1.1\n".toList = ' ' :: ("HTTP/1.1".toList ++ ['\n']) := by decide
  have hline : requestLine uri = "GET".toList ++ ' ' :: (uri ++ ' ' :: ("HTTP/1.1".toList ++ ['\n'])) := by
    show "GET ".toList ++ uri ++ " HTTP/1.1\n".toList = _
    rw [hget, hhttp, List.append_assoc, List.append_assoc, List.singleton_append]
  rw [cstr_of_notMem hnul, words_eq, hline,
    wordsBy_append_cons (by decide), wordsBy_append_cons (by decide), wordsBy_append_cons (by decide),
    wordsBy_word (by decide) (notSpace_of_all (by decide)), wordsBy_word h.1 fun c hc => (h.2 c hc).1,
    wordsBy_word (by decide) (notSpace_of_all (by decide)), wordsBy_nil]
  rfl

theorem requestLine_eq (uri : List Char) :
    requestLine uri = "GET ".toList ++ uri ++ " HTTP/1.1".toList ++ ['\n'] := by
  have hhttp : " HTTP/1.1\n".toList = " HTTP/1.1".toList ++ ['\n'] := by decide
  show "GET ".toList ++ uri ++ " HTTP/1.1\n".toList = _
  rw [hhttp, ← List.append_assoc]

theorem complete_requestLine (uri : List Char) : Complete '\n' (maxLine - 1) (requestLine uri) :=
  .inl (by rw [requestLine_eq, List.getLast?_concat])

theorem cutLine_request (h : IsWord uri) (hlen : (requestLine uri ++ hostLine hostname).length < maxLine) :
    cutLine '\n' (maxLine - 1) (requestLine uri ++ hostLine hostname) = (requestLine uri, hostLine hostname) := by
  have hfit : (requestLine uri).length < maxLine := length_lt_of_append hlen
  refine cutLine_of_complete (by omega) (complete_requestLine uri) ?_
  rw [requestLine_eq, List.dropLast_concat]
  intro hmem
  rcases List.mem_append.mp hmem with hmem | hmem
  · rcases List.mem_append.mp hmem with hmem | hmem
    · exact absurd hmem (by decide)
    · exact absurd (h.2 _ hmem).1 (by decide)
  · exact absurd hmem (by decide)

/-- The line with the host is followed by an empty line. -/
theorem hostLine_empty (hostname : List Char) : IsLineOf '\n' (maxLine - 1) crlf (hostLine hostname) := by
  refine ⟨"host: ".toList ++ hostname ++ ['\n'], [], ?_, ?_⟩
  · have hend : "\n\r\n".toList = ['\n'] ++ crlf := by decide
    show "host: ".toList ++ hostname ++ "\n\r\n".toList = _
    rw [hend, ← List.append_assoc, List.append_nil]
  · unfold StartsLine
    rw [List.reverse_append]
    exact dvd_zero _

theorem handleLine_yields {rio rp : Rio} {fuel : ℕ}
    (h : Answers stats arrivalTime dispatchInterval os output (fileOf uri) (argsOf uri (cstr stack.cgiargs))
      (isStatic uri) stats' reply)
    (hrange : InRange stats' arrivalTime dispatchInterval) (hword : IsWord uri)
    (hfits : uri.length < maxLine ∧ (fileOf uri).length < maxLine) (hroom : sink.Takes reply.text.length)
    (hhdrs : requestReadhdrs fuel rio stack.hdr = .ret rp) :
    Yields output (handleLine os stack fuel sink rio (cstr (requestLine uri)) stats arrivalTime dispatchInterval) stats'
      reply.text := by
  have hparse := ((requestParseURI_spec maxLine uri (cstr stack.cgiargs)).ret
    ((parseFits_iff hfits.1).mpr ⟨hword.1, hfits.2⟩)).1
  have hquiet := Quiet.requestParseURI maxLine uri (cstr stack.cgiargs)
  unfold handleLine
  rw [words_requestLine hword]
  refine .after (.put (by decide)) (.after (.put hfits.1) (.after (.put (by decide)) ?_))
  rw [if_neg (by decide)]
  refine .after (.lift hhdrs) (.after (.of_quiet hquiet hparse ?_) (serveFile_yields h hrange hroom))
  exact (Logs.requestParseURI _ _ _ _ hparse).2

/-- **The server replies to the request** that the client has sent, in whatever chunks it comes. -/
theorem requestHandle_yields {conn : Conn}
    (h : Answers { stats with handlerThreadReqCount := stats.handlerThreadReqCount + 1 } arrivalTime dispatchInterval
      os output (fileOf uri) (argsOf uri (cstr stack.cgiargs)) (isStatic uri) stats' reply)
    (hrange : InRange stats' arrivalTime dispatchInterval) (hcount : stats.handlerThreadReqCount < intMax)
    (hword : IsWord uri) (hfile : (fileOf uri).length < maxLine)
    (hlen : (requestLine uri ++ hostLine hostname).length < maxLine)
    (hstream : (rioReadinitb conn).stream = requestLine uri ++ hostLine hostname)
    (hroom : conn.sink.Takes reply.text.length) : ∃ x, (∃ N, ∀ fuel, N ≤ fuel →
      requestHandle os stack fuel conn stats arrivalTime dispatchInterval = x) ∧ Yields output x stats' reply.text := by
  have hcut := cutLine_request hword hlen
  have hline : (rioReadinitb conn).line = requestLine uri := by rw [Rio.line, hstream, hcut]
  have hne : (rioReadinitb conn).stream ≠ [] := by
    rw [hstream, requestLine_eq]
    simp
  have hd : (rioReadinitb conn).Delivers := .inr (by rw [hline]; exact complete_requestLine uri)
  obtain ⟨rio, hread, hs, -⟩ := readlineb_ret stack.buf hd
  rw [if_neg hne, hline] at hread
  obtain ⟨rp, N, hhdrs⟩ := (headersEnd_iff rio stack.hdr).mpr (.inl (by
    rw [Rio.HasEmptyLine, hs, Rio.rest, hstream, hcut]
    exact hostLine_empty hostname))
  have huri : uri.length < maxLine := by
    have hfit := length_lt_of_append (length_lt_of_append hlen)
    rw [List.length_append] at hfit
    omega
  -- what is left does not depend on the fuel
  have hstep : ∀ fuel, requestHandle os stack fuel conn stats arrivalTime dispatchInterval =
      handleLine os stack fuel conn.sink rio (cstr (requestLine uri))
        { stats with handlerThreadReqCount := stats.handlerThreadReqCount + 1 } arrivalTime dispatchInterval := by
    intro fuel
    rw [requestHandle, increment_of_lt hcount, lift_ret_bind, answer, hread]
    rfl
  refine ⟨_, ⟨N, fun fuel hfuel => ?_⟩, handleLine_yields h hrange hword ⟨huri, hfile⟩ hroom (hhdrs N le_rfl)⟩
  rw [hstep, handleLine, handleLine]
  have hsame := (hhdrs fuel hfuel).trans (hhdrs N le_rfl).symm
  beta_reduce at hsame
  rw [hsame]

end Handle

theorem Answers.fetched {os : Os} {output : List Char → List Char → List Char} {filename cgiargs : List Char}
    {static : Bool} {stats stats' : Stats} {arrivalTime dispatchInterval : ℚ} {reply : Reply}
    (h : Answers stats arrivalTime dispatchInterval os output filename cgiargs static stats' reply)
    (hrange : InRange stats' arrivalTime dispatchInterval) (hbody : '\x00' ∉ reply.body) {client : Conn}
    (hend : client.ending = .eof) (hclient : (rioReadinitb client).stream = reply.text) (buf : List Char) :
    ∃ N, ∀ fuel, N ≤ fuel → Prints (clientPrint fuel client buf) (headerText reply.header ++ reply.body) := by
  refine ⟨(rioReadinitb client).lines.length + 1, fun fuel hfuel => ?_⟩
  rw [clientPrint_eq hend buf hfuel, Rio.lines, hclient]
  exact h.printed hrange hbody

/-- **From the client to the server and back.** The client has sent its request for a file or a program, and the
connection brings it to the server in any chunks: then the server replies with the file, with what the program
writes, or with an error page, whatever its arrays held before, and counts the request. If the connection brings the
reply back, again in any chunks, and is then closed, the client ends and has printed the header, line by line, with
the length of the body if the header gives it, and the body. -/
theorem fetch {os : Os} {output : List Char → List Char → List Char} {stack : Stack} {uri hostname : List Char}
    {stats stats' : Stats} {arrivalTime dispatchInterval : ℚ} {reply : Reply} {sink sink' : Sink} {server : Conn}
    (hsend : (clientSend sink uri (some hostname)).out = .ret sink')
    (hstream : (rioReadinitb server).stream = sent (clientSend sink uri (some hostname)).log)
    (hword : IsWord uri) (hfile : (fileOf uri).length < maxLine) (hcount : stats.handlerThreadReqCount < intMax)
    (h : Answers { stats with handlerThreadReqCount := stats.handlerThreadReqCount + 1 } arrivalTime dispatchInterval
      os output (fileOf uri) (argsOf uri (cstr stack.cgiargs)) (isStatic uri) stats' reply)
    (hrange : InRange stats' arrivalTime dispatchInterval) (hroom : server.sink.Takes reply.text.length)
    (hbody : '\x00' ∉ reply.body) :
    ∃ x, (∃ N, ∀ fuel, N ≤ fuel → requestHandle os stack fuel server stats arrivalTime dispatchInterval = x) ∧
      x.out = .ret stats' ∧
      ∀ (client : Conn) (buf : List Char), client.ending = .eof →
        (rioReadinitb client).stream = received output x.log → ∃ N, ∀ fuel, N ≤ fuel →
          Prints (clientPrint fuel client buf) (headerText reply.header ++ reply.body) := by
  obtain ⟨hlen, hsent⟩ := clientSend_sent hsend
  rw [hsent] at hstream
  obtain ⟨x, hx, ho, htext⟩ := requestHandle_yields h hrange hcount hword hfile hlen hstream hroom
  exact ⟨x, hx, ho, fun client buf hend hclient => h.fetched hrange hbody hend (hclient.trans htext) buf⟩

/-- A file with one line. -/
def helloFiles : Os where
  stat := fun _ => some ⟨true, true, false, 3⟩
  openFile := fun _ => true
  mmap := fun _ n => if h : 3 = n then some ⟨"hi\n".toList, h⟩ else none
  closeFile := fun _ => true
  munmap := fun _ _ => true
  fork := true
  waitpid := true

/-- The request for it, in two chunks. -/
def helloConn : Conn where
  reads := [some ⟨"GET / HT".toList, by decide, by decide⟩, none,
    some ⟨"TP/1.1\nhost: a\n\r\n".toList, by decide, by decide⟩]
  ending := .failed
  sink := ⟨[100, 0, 7], none⟩

theorem fetch_hello : ∃ x,
    (∃ N, ∀ fuel, N ≤ fuel → requestHandle helloFiles (stackOf []) fuel helloConn noStats 0 0 = x) ∧
    x.out = .ret ⟨0, 1, 1, 0⟩ ∧
    ∀ (client : Conn) (buf : List Char), client.ending = .eof →
      (rioReadinitb client).stream = received (fun _ _ => []) x.log →
        ∃ N, ∀ fuel, N ≤ fuel → Prints (clientPrint fuel client buf)
          (headerText (fileReply ⟨0, 1, 1, 0⟩ 0 0 "./public//home.html".toList "hi\n".toList).header ++
            "hi\n".toList) := by
  have hsend : (clientSend ⟨[], none⟩ "/".toList (some ['a'])).out = .ret ⟨[], none⟩ := rfl
  have hfile : fileOf "/".toList = "./public//home.html".toList := by decide
  have hanswer : Answers ⟨0, 1, 0, 0⟩ 0 0 helloFiles (fun _ _ => []) "./public//home.html".toList
      (argsOf "/".toList (cstr (stackOf []).cgiargs)) (isStatic "/".toList) ⟨0, 1, 1, 0⟩
      (fileReply ⟨0, 1, 1, 0⟩ 0 0 "./public//home.html".toList "hi\n".toList) :=
    .file rfl rfl rfl rfl (by decide) rfl rfl rfl rfl (by decide)
  have hrange : InRange ⟨0, 1, 1, 0⟩ 0 0 := by constructor <;> norm_num
  rw [← hfile] at hanswer ⊢
  exact fetch hsend rfl (by decide) (by decide) (by decide) hanswer hrange (by decide) (by decide)

end OsHomework.Server
