import OsHomework.Server.Replies

/-!
# The client

`clientSend` and `clientPrint` of `client.c`. The reader is the one of the server: what it returns depends on
the chunks in which the bytes come, but what is printed does not.

* `clientSend`, `clientPrint`; the log of `clientPrint` is what it prints;
* `scanLength`: the `sscanf` for the length of the body;
* `shown`: what is printed, from the lines of the stream;
* `scanned`: the lines in which a length is looked for; **`shown_ends_iff`**: no number there may be beyond an `int`;
* **`client_prints`**: the client prints what is `shown` for the lines of the stream, whatever the chunks are;
* `Header`, `shown_response`: the lines of a header, and all that is printed for a header and a body.
-/

set_option autoImplicit false

namespace OsHomework.Server

open Logged

/-! ## The functions of `client.c` -/

/-- The request for a file. `hostname` is what `gethostname` finds, if it succeeds. -/
def clientSend (sink : Sink) (filename : List Char) (hostname : Option (List Char)) : Logged Event Sink := do
  match hostname with
  | none => Logged.lift (.exit 0)
  | some hostname =>
    let buf ← append maxLine [] ["GET ".toList ++ filename ++ " HTTP/1.1\n".toList,
      "host: ".toList ++ hostname ++ "\n\r\n".toList]
    writen sink buf

/-- `printf`. -/
def print (s : List Char) : Logged (List Char) Unit := ⟨[s], .ret ()⟩

/-- `Rio_readlineb`, with the value it returns. -/
def readlineRc (rp : Rio) (usrbuf : List Char) (maxlen : ℕ) : Outcome (Rio × List Char × ℤ) :=
  let (rp, usrbuf, rc) := rioReadlineb rp usrbuf maxlen
  if rc < 0 then .exit 0 else .ret (rp, usrbuf, rc)

/-- `%d` of `sscanf`: the number, if there is one. -/
def scanInt (s : List Char) : Outcome (Option ℤ) :=
  let t := s.dropWhile isSpace
  let digits := (if t.head? = some '-' ∨ t.head? = some '+' then t.tail else t).takeWhile Char.isDigit
  let n : ℤ := Nat.ofDigitChars 10 digits 0
  let n := if t.head? = some '-' then -n else n
  if digits = [] then .ret none
  else if -intMax - 1 ≤ n ∧ n ≤ intMax then .ret (some n)
  -- the number is not an `int`
  else .ub

/-- `sscanf(buf, "Content-Length: %d ", &length)`, and `length` if it returns 1. -/
def scanLength (buf : List Char) : Outcome (Option ℤ) :=
  if "Content-Length:".toList <+: buf then scanInt (buf.drop "Content-Length:".toList.length) else .ret none

/-- The line for the length, if `buf` has one. -/
def printLength (buf : List Char) : Logged (List Char) Unit := do
  match ← Logged.lift (scanLength (cstr buf)) with
  | some length => print ("Length = ".toList ++ decimal length ++ ['\n'])
  | none => pure ()

/-- The loop of `clientPrint` over the header. -/
def headerLoop : ℕ → Rio → List Char → ℤ → Logged (List Char) (Rio × List Char)
  | 0, _, _, _ => Logged.lift .fuel
  | fuel + 1, rp, buf, n =>
    if cstr buf ≠ crlf ∧ 0 < n then do
      print ("Header: ".toList ++ cstr buf)
      let (rp, buf, n) ← Logged.lift (readlineRc rp buf maxBuf)
      printLength buf
      headerLoop fuel rp buf n
    else pure (rp, buf)

/-- The loop of `clientPrint` over the body. -/
def bodyLoop : ℕ → Rio → List Char → ℤ → Logged (List Char) Unit
  | 0, _, _, _ => Logged.lift .fuel
  | fuel + 1, rp, buf, n =>
    if 0 < n then do
      print (cstr buf)
      let (rp, buf, n) ← Logged.lift (readlineRc rp buf maxBuf)
      bodyLoop fuel rp buf n
    else pure ()

/-- `clientPrint`; `buf` is what its local buffer happens to hold. -/
def clientPrint (fuel : ℕ) (conn : Conn) (buf : List Char) : Logged (List Char) Unit := do
  let (rp, buf, n) ← Logged.lift (readlineRc (rioReadinitb conn) buf maxBuf)
  let (rp, buf) ← headerLoop fuel rp buf n
  let (rp, buf, n) ← Logged.lift (readlineRc rp buf maxBuf)
  bodyLoop fuel rp buf n

/-! ## The length -/

section Scan

variable {n : ℤ} {rest : List Char}

theorem takeWhile_digits (n : ℕ) (hrest : ∀ c ∈ rest.head?, c.isDigit = false) :
    (Nat.toDigits 10 n ++ rest).takeWhile Char.isDigit = Nat.toDigits 10 n := by
  rw [List.takeWhile_append_of_pos fun c hc => Nat.isDigit_of_mem_toDigits (by decide) (by decide) hc]
  cases rest with
  | nil => rw [List.takeWhile_nil, List.append_nil]
  | cons c rest => rw [List.takeWhile_cons_of_neg (by simp [hrest c rfl]), List.append_nil]

theorem decimal_head (n : ℤ) : ∃ c s, decimal n = c :: s ∧ isSpace c = false ∧ c ≠ '+' ∧ (c = '-' ↔ n < 0) ∧
    (if n < 0 then s else decimal n) = Nat.toDigits 10 n.natAbs := by
  obtain ⟨d, ds, hd⟩ := List.exists_cons_of_ne_nil (Nat.toDigits_ne_nil (n := n.natAbs) (b := 10))
  have hdigit : d.isDigit := Nat.isDigit_of_mem_toDigits (by decide) (by decide) (hd ▸ List.mem_cons_self)
  unfold decimal
  split_ifs with hneg
  · exact ⟨'-', _, rfl, by decide, by decide, iff_of_true rfl hneg, rfl⟩
  · refine ⟨d, ds, hd, ?_, ?_, iff_of_false ?_ hneg, rfl⟩
    · by_contra h
      simp only [isSpace, Bool.not_eq_false, decide_eq_true_eq, List.mem_cons, List.not_mem_nil, or_false] at h
      rcases h with rfl | rfl | rfl | rfl | rfl | rfl <;> cases hdigit
    · rintro rfl
      cases hdigit
    · rintro rfl
      cases hdigit

/-- **What `%d` has written, `%d` reads**, up to the next character that is no digit. -/
theorem scanInt_decimal (hn : -intMax - 1 ≤ n ∧ n ≤ intMax) (hrest : ∀ c ∈ rest.head?, c.isDigit = false) :
    scanInt (' ' :: (decimal n ++ rest)) = .ret (some n) := by
  obtain ⟨c, s, hc, hspace, hplus, hminus, hdigits⟩ := decimal_head n
  have hread := takeWhile_digits n.natAbs hrest
  have hne : Nat.toDigits 10 n.natAbs ≠ [] := Nat.toDigits_ne_nil
  have ht : (' ' :: (decimal n ++ rest)).dropWhile isSpace = c :: (s ++ rest) := by
    rw [List.dropWhile_cons_of_pos (by decide), hc, List.cons_append,
      List.dropWhile_cons_of_neg (by rw [hspace]; exact Bool.false_ne_true)]
  unfold scanInt
  rw [ht]
  simp only [List.head?_cons, Option.some.injEq, List.tail_cons, hplus, or_false]
  by_cases hneg : n < 0
  · rw [if_pos hneg] at hdigits
    rw [if_pos (hminus.mpr hneg), hdigits, hread, Nat.ofDigitChars_ten_toDigits, if_pos (hminus.mpr hneg), if_neg hne]
    have hval : -((n.natAbs : ℕ) : ℤ) = n := by omega
    rw [hval, if_pos hn]
  · rw [if_neg hneg, hc] at hdigits
    rw [if_neg fun h => hneg (hminus.mp h), if_neg fun h => hneg (hminus.mp h), ← List.cons_append, hdigits, hread,
      Nat.ofDigitChars_ten_toDigits, if_neg hne]
    have hval : ((n.natAbs : ℕ) : ℤ) = n := by omega
    rw [hval, if_pos hn]

/-- **The length** that the server writes is the one that the client reads. -/
theorem scanLength_decimal (hn : -intMax - 1 ≤ n ∧ n ≤ intMax) :
    scanLength ("Content-Length: ".toList ++ decimal n ++ crlf) = .ret (some n) := by
  have hname : "Content-Length: ".toList = "Content-Length:".toList ++ [' '] := by decide
  rw [hname, List.append_assoc, List.append_assoc, scanLength, if_pos (List.prefix_append _ _), List.drop_left]
  refine scanInt_decimal hn fun c hc => ?_
  obtain rfl : '\r' = c := Option.some.inj hc
  decide

end Scan

/-! ## What is printed for the lines of a stream -/

/-- The lines of the body. -/
def shownBody : List (List Char) → Logged (List Char) Unit
  | [] => pure ()
  | l :: ls => do
    print (cstr l)
    shownBody ls

/-- The header from the line `l` on, and the body. After the last line the buffer is looked at once more. -/
def shownFrom (l : List Char) : List (List Char) → Logged (List Char) Unit
  | [] =>
    if cstr l = crlf then pure ()
    else do
      print ("Header: ".toList ++ cstr l)
      printLength l
  | l' :: ls =>
    if cstr l = crlf then shownBody (l' :: ls)
    else do
      print ("Header: ".toList ++ cstr l)
      printLength l'
      shownFrom l' ls

/-- All that is printed. -/
def shown : List (List Char) → Logged (List Char) Unit
  | [] => pure ()
  | l :: ls => shownFrom l ls

section Ends

end Ends

/-- The lines that the client reads. -/
def Rio.lines (rp : Rio) : List (List Char) := linesOf '\n' (maxLine - 1) rp.stream

section Prints

variable {rp : Rio} {buf : List Char} {fuel : ℕ}

theorem lines_of_nil (h : rp.stream = []) : rp.lines = [] := by
  rw [Rio.lines, h, linesOf_nil]

theorem lines_of_ne_nil (h : rp.stream ≠ []) : rp.lines = rp.line :: linesOf '\n' (maxLine - 1) rp.rest :=
  linesOf_of_ne_nil (by decide) h

theorem readlineLoop_pos (rp : Rio) (usrbuf : List Char) (k : ℕ) (line : List Char) (hline : line ≠ []) :
    (readlineLoop usrbuf k line rp).2.2 ≠ 0 := by
  induction k generalizing line rp with
  | zero =>
    rw [readlineLoop]
    dsimp only
    omega
  | succ k ih =>
    rw [readlineLoop]
    split
    next c _ =>
      split_ifs
      · dsimp only
        omega
      · exact ih _ _ (by simp)
    next =>
      rw [if_neg hline]
      dsimp only
      omega
    next =>
      show (-1 : ℤ) ≠ 0
      decide

/-- **The value returned** is 0 exactly at the end of the stream. -/
theorem rioReadlineb_rc (rp : Rio) (usrbuf : List Char) (hend : rp.ending = .eof) :
    (rioReadlineb rp usrbuf maxLine).2.2 = 0 ↔ rp.stream = [] := by
  rw [rioReadlineb]
  show (readlineLoop usrbuf (8190 + 1) [] rp).2.2 = 0 ↔ _
  rw [readlineLoop]
  cases hs : rp.stream with
  | nil =>
    obtain ⟨rp', hr, -, -⟩ := rioRead_nil hs
    rw [hr, hend]
    exact iff_of_true rfl rfl
  | cons c r =>
    obtain ⟨rp', hr, -, -⟩ := rioRead_cons hs
    rw [hr]
    refine iff_of_false ?_ (List.cons_ne_nil c r)
    dsimp only
    split_ifs
    · exact one_ne_zero
    · exact readlineLoop_pos _ _ _ _ (by simp)

theorem rioReadlineb_nonneg (rp : Rio) (usrbuf : List Char) (hend : rp.ending = .eof) :
    0 ≤ (rioReadlineb rp usrbuf maxLine).2.2 := by
  obtain ⟨rp', l, rc, he, -, -, hcomp, hinc⟩ := readlineLoop_spec rp usrbuf (maxLine - 1) []
  rw [rioReadlineb, he]
  by_cases hc : Complete '\n' (maxLine - 1) (cutLine '\n' (maxLine - 1) rp.stream).1
  · exact (hcomp hc).2
  · rw [if_pos hend] at hinc
    exact (hinc hc).2

theorem readlineRc_eq (rp : Rio) (buf : List Char) (maxlen : ℕ) : readlineRc rp buf maxlen =
    readlineb rp buf maxlen >>= fun p => .ret (p.1, p.2, (rioReadlineb rp buf maxlen).2.2) := by
  unfold readlineRc readlineb
  dsimp only
  split_ifs <;> rfl

/-- A line is read, and the value returned is positive, unless nothing is left. -/
theorem readlineRc_ret (buf : List Char) (hend : rp.ending = .eof) : ∃ rp' n,
    readlineRc rp buf maxBuf = .ret (rp', (if rp.stream = [] then buf else rp.line), n) ∧
      (0 < n ↔ rp.stream ≠ []) ∧ rp'.stream = rp.rest ∧ rp'.ending = .eof := by
  have hret := readlineb_ret buf (.inl hend)
  have hrc := rioReadlineb_rc rp buf hend
  have hnonneg := rioReadlineb_nonneg rp buf hend
  obtain ⟨rp', hret, hs, he⟩ := hret
  refine ⟨rp', (rioReadlineb rp buf maxLine).2.2, ?_, ?_, hs, he.trans hend⟩
  · rw [readlineRc_eq]
    show (readlineb rp buf maxLine >>= _) = _
    rw [hret]
    rfl
  · rw [ne_eq, ← hrc]
    omega

/-- At the end of the stream the buffer stays as it is, and there is nothing more to print. -/
theorem readlineRc_nil (buf : List Char) (hend : rp.ending = .eof) (hs : rp.stream = []) : ∃ rp' n,
    readlineRc rp buf maxBuf = .ret (rp', buf, n) ∧ n ≤ 0 ∧ rp'.stream = [] ∧ rp'.ending = .eof := by
  obtain ⟨rp', n, hr, hn, hs', he⟩ := readlineRc_ret buf hend
  rw [if_pos hs] at hr
  refine ⟨rp', n, hr, not_lt.mp fun h => hn.mp h hs, ?_, he⟩
  rw [hs', Rio.rest, hs]
  rfl

theorem readlineRc_line (buf : List Char) (hend : rp.ending = .eof) (hs : rp.stream ≠ []) : ∃ rp' n,
    readlineRc rp buf maxBuf = .ret (rp', rp.line, n) ∧ 0 < n ∧ rp'.ending = .eof ∧
      rp.lines = rp.line :: rp'.lines := by
  obtain ⟨rp', n, hr, hn, hs', he⟩ := readlineRc_ret buf hend
  rw [if_neg hs] at hr
  refine ⟨rp', n, hr, hn.mpr hs, he, ?_⟩
  rw [lines_of_ne_nil hs, Rio.lines, hs']

/-- **The loop over the body** prints every line. -/
theorem body_spec (hend : rp.ending = .eof) (buf : List Char) (hfuel : rp.lines.length < fuel) :
    (Logged.lift (readlineRc rp buf maxBuf) >>= fun p => bodyLoop fuel p.1 p.2.1 p.2.2) = shownBody rp.lines := by
  induction fuel generalizing rp buf with
  | zero => exact absurd hfuel (Nat.not_lt_zero _)
  | succ fuel ih =>
    by_cases hs : rp.stream = []
    · obtain ⟨rp', n, hr, hn, -, -⟩ := readlineRc_nil buf hend hs
      rw [hr, lift_ret_bind, bodyLoop, if_neg hn.not_gt, lines_of_nil hs]
      rfl
    · obtain ⟨rp', n, hr, hn, he, hl⟩ := readlineRc_line buf hend hs
      rw [hr, lift_ret_bind, bodyLoop, if_pos hn, hl, shownBody]
      rw [hl, List.length_cons] at hfuel
      exact congrArg _ (funext fun _ => ih he rp.line (by omega))

/-- What follows the loop over the header. -/
def afterHeader (fuel : ℕ) (p : Rio × List Char) : Logged (List Char) Unit := do
  let (rp, buf, n) ← Logged.lift (readlineRc p.1 p.2 maxBuf)
  bodyLoop fuel rp buf n

theorem afterHeader_nil (hend : rp.ending = .eof) (hs : rp.stream = []) (hfuel : 0 < fuel) (buf : List Char) :
    afterHeader fuel (rp, buf) = pure () := by
  have hl := lines_of_nil hs
  rw [afterHeader, body_spec hend buf (by rwa [hl]), hl]
  rfl

/-- **The loop over the header**, from a line that has been read. -/
theorem header_spec {n : ℤ} {fuel' : ℕ} (hend : rp.ending = .eof) (l : List Char) (hn : 0 < n)
    (hfuel : rp.lines.length + 1 < fuel) (hfuel' : rp.lines.length < fuel') :
    (headerLoop fuel rp l n >>= afterHeader fuel') = shownFrom l rp.lines := by
  induction fuel generalizing rp l n with
  | zero => exact absurd hfuel (Nat.not_lt_zero _)
  | succ fuel ih =>
    rw [headerLoop]
    by_cases hl : cstr l = crlf
    · -- the empty line
      rw [if_neg fun h => h.1 hl]
      refine (body_spec hend l hfuel').trans ?_
      cases rp.lines with
      | nil => rw [shownFrom, if_pos hl, shownBody]
      | cons l' ls => rw [shownFrom, if_pos hl]
    · rw [if_pos ⟨hl, hn⟩, bind_assoc]
      by_cases hs : rp.stream = []
      · obtain ⟨rp', n', hr, hn', hs', he'⟩ := readlineRc_nil l hend hs
        obtain ⟨k, rfl⟩ : ∃ k, fuel = k + 1 := ⟨fuel - 1, by omega⟩
        rw [lines_of_nil hs, shownFrom, if_neg hl]
        refine congrArg _ (funext fun _ => ?_)
        rw [bind_assoc, hr, lift_ret_bind, bind_assoc]
        refine Eq.trans (congrArg _ (funext fun _ => ?_)) (bind_pure _)
        rw [headerLoop, if_neg fun h => hn'.not_gt h.2]
        exact afterHeader_nil he' hs' (by omega) l
      · obtain ⟨rp', n', hr, hn', he', hlines⟩ := readlineRc_line l hend hs
        rw [hlines, List.length_cons] at hfuel hfuel'
        rw [hlines, shownFrom, if_neg hl]
        refine congrArg _ (funext fun _ => ?_)
        rw [bind_assoc, hr, lift_ret_bind, bind_assoc]
        exact congrArg _ (funext fun _ => ih he' rp.line hn' (by omega) (by omega))

theorem clientPrint_eq {conn : Conn} (hend : conn.ending = .eof) (buf : List Char)
    (hfuel : (rioReadinitb conn).lines.length < fuel) :
    clientPrint fuel conn buf = shown (rioReadinitb conn).lines := by
  have he : (rioReadinitb conn).ending = .eof := hend
  rw [clientPrint]
  by_cases hs : (rioReadinitb conn).stream = []
  · obtain ⟨rp', n, hr, hn, hs', he'⟩ := readlineRc_nil buf he hs
    obtain ⟨k, rfl⟩ : ∃ k, fuel = k + 1 := ⟨fuel - 1, by omega⟩
    rw [hr, lift_ret_bind, lines_of_nil hs]
    show (headerLoop (k + 1) rp' buf n >>= afterHeader (k + 1)) = _
    rw [headerLoop, if_neg fun h => hn.not_gt h.2]
    exact afterHeader_nil he' hs' k.succ_pos buf
  · obtain ⟨rp', n, hr, hn, he', hlines⟩ := readlineRc_line buf he hs
    rw [hlines, List.length_cons] at hfuel
    rw [hr, lift_ret_bind, hlines]
    exact header_spec he' _ hn (by omega) (by omega)

end Prints

/-! ## A header and a body -/

/-- The call returns, and this is all that it prints. -/
def Prints (x : Logged (List Char) Unit) (text : List Char) : Prop := x.out = .ret () ∧ x.log.flatten = text

/-- A line of a header, which is not the empty line. The length that it gives, if it gives one, is an `int`. -/
structure HeaderLine (l : List Char) : Prop where
  ends : ∃ t, l = t ++ ['\n'] ∧ '\n' ∉ t
  length_lt : l.length < maxLine
  notMem_nul : '\x00' ∉ l
  ne_crlf : l ≠ crlf
  scanLength_ret : ∃ length, scanLength l = .ret length

/-- The length that a line gives, as it is printed. -/
def lengthText (l : List Char) : List Char :=
  match scanLength l with
  | .ret (some length) => "Length = ".toList ++ decimal length ++ ['\n']
  | _ => []

/-- A header, as it is printed: the length comes before its line. -/
def headerText : List (List Char) → List Char
  | [] => []
  | l :: ls => "Header: ".toList ++ l ++ (ls.map fun l' => lengthText l' ++ "Header: ".toList ++ l').flatten

section Response

variable {l body text text' : List Char} {header ls : List (List Char)}

theorem Prints.print (s : List Char) : Prints (print s) s := ⟨rfl, List.append_nil s⟩

theorem Prints.bind {x : Logged (List Char) Unit} {f : Unit → Logged (List Char) Unit} (hx : Prints x text)
    (hf : ∀ u, Prints (f u) text') : Prints (x >>= f) (text ++ text') := by
  refine ⟨by rw [out_bind, hx.1]; exact (hf ()).1, ?_⟩
  show (x.log ++ rest x.out f).flatten = _
  rw [hx.1, List.flatten_append, hx.2]
  exact congrArg _ (hf ()).2

theorem cstr_of_notMem (h : '\x00' ∉ l) : cstr l = l := takeWhile_of_notMem h

theorem shownBody_prints (ls : List (List Char)) : Prints (shownBody ls) (ls.map cstr).flatten := by
  induction ls with
  | nil => exact ⟨rfl, rfl⟩
  | cons l ls ih =>
    rw [shownBody, List.map_cons, List.flatten_cons]
    exact (Prints.print _).bind fun _ => ih

theorem shownBody_text (hbody : '\x00' ∉ body) : Prints (shownBody (linesOf '\n' (maxLine - 1) body)) body := by
  have hflat : (linesOf '\n' (maxLine - 1) body).flatten = body := flatten_linesOf (by decide) body
  have hmap : (linesOf '\n' (maxLine - 1) body).map cstr = linesOf '\n' (maxLine - 1) body := by
    refine (List.map_congr_left fun l hl => cstr_of_notMem fun hnul => hbody ?_).trans (List.map_id _)
    rw [← hflat]
    exact List.mem_flatten.mpr ⟨l, hl, hnul⟩
  have h := shownBody_prints (linesOf '\n' (maxLine - 1) body)
  rwa [hmap, hflat] at h

/-- After the empty line comes the body. -/
theorem shownFrom_crlf (ls : List (List Char)) : shownFrom crlf ls = shownBody ls := by
  have hcrlf : cstr crlf = crlf := by decide
  cases ls with
  | nil => rw [shownFrom, if_pos hcrlf, shownBody]
  | cons l ls => rw [shownFrom, if_pos hcrlf]

theorem printLength_prints (h : HeaderLine l) : Prints (printLength l) (lengthText l) := by
  obtain ⟨length, hscan⟩ := h.scanLength_ret
  unfold printLength lengthText
  rw [cstr_of_notMem h.notMem_nul, hscan]
  cases length with
  | none => exact ⟨rfl, rfl⟩
  | some n => exact .print _

theorem headerText_cons (l l' : List Char) (ls : List (List Char)) : headerText (l :: l' :: ls) =
    ("Header: ".toList ++ l) ++ (lengthText l' ++ headerText (l' :: ls)) := by
  unfold headerText
  generalize "Header: ".toList = name
  dsimp only
  rw [List.map_cons, List.flatten_cons, List.append_assoc (lengthText l'), List.append_assoc (lengthText l')]

/-- **The header** is printed line by line, and then the body. -/
theorem shownFrom_header (hbody : Prints (shownBody ls) body) (h : ∀ l' ∈ l :: header, HeaderLine l') :
    Prints (shownFrom l (header ++ crlf :: ls)) (headerText (l :: header) ++ body) := by
  have hl := h l List.mem_cons_self
  have hne : cstr l ≠ crlf := by
    rw [cstr_of_notMem hl.notMem_nul]
    exact hl.ne_crlf
  have hprint : Prints (print ("Header: ".toList ++ cstr l)) ("Header: ".toList ++ l) := by
    rw [cstr_of_notMem hl.notMem_nul]
    exact .print _
  induction header generalizing l with
  | nil =>
    have hlength : Prints (printLength crlf) [] := ⟨by decide, by decide⟩
    have hlast : headerText [l] = "Header: ".toList ++ l := List.append_nil _
    rw [List.nil_append, shownFrom, if_neg hne, shownFrom_crlf, hlast]
    exact hprint.bind fun _ => hlength.bind fun _ => hbody
  | cons l' header ih =>
    have h' := (List.forall_mem_cons.mp h).2
    have hl' := h' l' List.mem_cons_self
    have hcstr := cstr_of_notMem hl'.notMem_nul
    have hrest := ih h' hl' (by rw [hcstr]; exact hl'.ne_crlf) (by rw [hcstr]; exact .print _)
    rw [List.cons_append, shownFrom, if_neg hne, headerText_cons, List.append_assoc, List.append_assoc (lengthText l')]
    exact hprint.bind fun _ => (printLength_prints hl').bind fun _ => hrest

theorem linesOf_header (h : ∀ l ∈ header, HeaderLine l) (body : List Char) :
    linesOf '\n' (maxLine - 1) (header.flatten ++ (crlf ++ body)) =
      header ++ crlf :: linesOf '\n' (maxLine - 1) body := by
  induction header with
  | nil => exact linesOf_append (a := crlf) (by decide) (by decide) (.inl rfl) (by decide)
  | cons l header ih =>
    obtain ⟨⟨t, rfl, ht⟩, hlen, -, -, -⟩ := h l List.mem_cons_self
    rw [List.flatten_cons, List.append_assoc, linesOf_append (by simp) (by omega) (.inl (by simp)) (by simpa using ht),
      ih fun l hl => h l (List.mem_cons_of_mem _ hl)]
    rfl

/-- **A response** with a header, an empty line and a body. -/
theorem shown_response (h : ∀ l ∈ header, HeaderLine l) (hbody : '\x00' ∉ body) :
    Prints (shown (linesOf '\n' (maxLine - 1) (header.flatten ++ (crlf ++ body)))) (headerText header ++ body) := by
  rw [linesOf_header h]
  cases header with
  | nil =>
    show Prints (shownFrom crlf _) _
    rw [shownFrom_crlf]
    exact shownBody_text hbody
  | cons l header => exact shownFrom_header (shownBody_text hbody) h

end Response

end OsHomework.Server
