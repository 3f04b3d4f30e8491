import Mathlib.Data.List.ReduceOption
import OsHomework.Lib.Lines
import OsHomework.Lib.Outcome

/-!
# Buffered reading

`rio_read`, `rio_readlineb` and its wrapper, from `segel.c`, and the header loop of `request.c`.

* `Rio`: the bytes in the internal buffer, and what the following calls of `read` return. A call returns
  some bytes, or is interrupted by a signal; after the last of them it reports the end of the stream, or
  fails;
* `rioReadlineb`: at the end of the stream it returns 0 and leaves the buffer of the caller as it was;
* `Rio.stream`: all the bytes that are still to come. **`readline_ret`**, `readline_exit`: how a line is cut
  off, whatever the chunks are;
* **`headers_end_iff`**: the header loop ends exactly if there is an empty line.
-/

set_option autoImplicit false

namespace OsHomework.Server

/-- `MAXLINE`. -/
def maxLine : ℕ := 8192

/-- `RIO_BUFSIZE`. -/
def rioBufSize : ℕ := 8192

/-- What a successful call of `read` returns: at least one byte, and no more than the buffer holds. -/
structure Chunk where
  bytes : List Char
  ne_nil : bytes ≠ []
  length_le : bytes.length ≤ rioBufSize

/-- What `read` returns at last. -/
inductive ReadEnd where
  | eof
  | failed
  deriving DecidableEq

/-- `rio_t`, and the results of the calls of `read` to come; `none` is an interrupted call. -/
structure Rio where
  unread : List Char
  reads : List (Option Chunk)
  ending : ReadEnd

/-- What `rio_read` returns: bytes, 0, or -1. -/
inductive Got where
  | bytes (l : List Char)
  | eof
  | error

def ReadEnd.got : ReadEnd → Got
  | .eof => .eof
  | .failed => .error

/-- The loop of `rio_read` that refills the internal buffer. -/
def refill : List (Option Chunk) → Option (Chunk × List (Option Chunk))
  | [] => none
  | none :: reads => refill reads
  | some chunk :: reads => some (chunk, reads)

def rioRead (rp : Rio) (n : ℕ) : Rio × Got :=
  match rp.unread with
  | [] =>
    match refill rp.reads with
    | none => ({ rp with reads := [] }, rp.ending.got)
    | some (chunk, reads) => ({ rp with unread := chunk.bytes.drop n, reads }, .bytes (chunk.bytes.take n))
  | unread => ({ rp with unread := unread.drop n }, .bytes (unread.take n))

/-- The loop of `rio_readlineb`: `k` more bytes may be read, and `line` has been read so far. -/
def readlineLoop (usrbuf : List Char) : ℕ → List Char → Rio → Rio × List Char × ℤ
  | 0, line, rp => (rp, line, line.length + 1)
  | k + 1, line, rp =>
    match rioRead rp 1 with
    | (rp, .bytes [c]) =>
      if c = '\n' then (rp, line ++ [c], line.length + 1) else readlineLoop usrbuf k (line ++ [c]) rp
    -- end of the stream: nothing is stored if no byte has been read
    | (rp, .eof) => if line = [] then (rp, usrbuf, 0) else (rp, line, line.length + 1)
    | (rp, _) => (rp, line, -1)

/-- `rio_readlineb`: the bytes that `usrbuf` then holds before the terminator, and the value returned. -/
def rioReadlineb (rp : Rio) (usrbuf : List Char) (maxlen : ℕ) : Rio × List Char × ℤ :=
  readlineLoop usrbuf (maxlen - 1) [] rp

/-- `Rio_readlineb`. An error ends the process. -/
def readlineb (rp : Rio) (usrbuf : List Char) (maxlen : ℕ) : Outcome (Rio × List Char) :=
  let (rp, usrbuf, rc) := rioReadlineb rp usrbuf maxlen
  if rc < 0 then .exit 0 else .ret (rp, usrbuf)

/-- The string in a buffer: what comes before the first NUL. -/
def cstr (buf : List Char) : List Char := buf.takeWhile (· ≠ '\x00')

def crlf : List Char := ['\r', '\n']

/-- The loop of `requestReadhdrs`. -/
def readhdrsLoop : ℕ → Rio → List Char → Outcome Rio
  | 0, _, _ => .fuel
  | fuel + 1, rp, buf =>
    if cstr buf = crlf then .ret rp
    else do
      let (rp, buf) ← readlineb rp buf maxLine
      readhdrsLoop fuel rp buf

/-- `requestReadhdrs`; `buf` is what its local buffer happens to hold. -/
def requestReadhdrs (fuel : ℕ) (rp : Rio) (buf : List Char) : Outcome Rio := do
  let (rp, buf) ← readlineb rp buf maxLine
  readhdrsLoop fuel rp buf

/-! ## The stream -/

/-- All the bytes that are still to come. -/
def Rio.stream (rp : Rio) : List Char := rp.unread ++ (rp.reads.reduceOption.map Chunk.bytes).flatten

section Stream

variable {rp : Rio} {usrbuf : List Char}

theorem refill_eq (reads : List (Option Chunk)) :
    refill reads = none ∧ reads.reduceOption = [] ∨
      ∃ chunk rest, refill reads = some (chunk, rest) ∧ reads.reduceOption = chunk :: rest.reduceOption := by
  induction reads with
  | nil => exact .inl ⟨rfl, rfl⟩
  | cons r reads ih =>
    cases r with
    | none => simpa [refill] using ih
    | some chunk => exact .inr ⟨chunk, reads, rfl, List.reduceOption_cons_of_some _ _⟩

theorem rioRead_cons {c : Char} {l : List Char} (h : rp.stream = c :: l) :
    ∃ rp', rioRead rp 1 = (rp', .bytes [c]) ∧ rp'.stream = l ∧ rp'.ending = rp.ending := by
  obtain ⟨unread, reads, ending⟩ := rp
  unfold Rio.stream at h
  cases unread with
  | nil =>
    rcases refill_eq reads with ⟨-, he⟩ | ⟨chunk, rest, hr, he⟩
    · rw [he] at h
      cases h
    · obtain ⟨d, r, hd⟩ := List.exists_cons_of_ne_nil chunk.ne_nil
      simp only [he, List.nil_append, List.map_cons, List.flatten_cons, hd, List.cons_append,
        List.cons.injEq] at h
      obtain ⟨rfl, rfl⟩ := h
      exact ⟨⟨r, rest, ending⟩, by simp [rioRead, hr, hd], rfl, rfl⟩
  | cons d r =>
    simp only [List.cons_append, List.cons.injEq] at h
    obtain ⟨rfl, rfl⟩ := h
    exact ⟨⟨r, reads, ending⟩, rfl, rfl, rfl⟩

theorem rioRead_nil (h : rp.stream = []) :
    ∃ rp', rioRead rp 1 = (rp', rp.ending.got) ∧ rp'.stream = [] ∧ rp'.ending = rp.ending := by
  obtain ⟨unread, reads, ending⟩ := rp
  obtain ⟨rfl, hflat⟩ : unread = [] ∧ (reads.reduceOption.map Chunk.bytes).flatten = [] := List.append_eq_nil_iff.mp h
  rcases refill_eq reads with ⟨hr, he⟩ | ⟨chunk, rest, hr, he⟩
  · exact ⟨⟨[], [], ending⟩, by simp [rioRead, hr], rfl, rfl⟩
  · rw [he, List.map_cons, List.flatten_cons] at hflat
    exact absurd (List.append_eq_nil_iff.mp hflat).1 chunk.ne_nil

/-- The first line of the stream, and what follows it. -/
def Rio.line (rp : Rio) : List Char := (cutLine '\n' (maxLine - 1) rp.stream).1

def Rio.rest (rp : Rio) : List Char := (cutLine '\n' (maxLine - 1) rp.stream).2

/-- No error comes before the end of the line. -/
def Rio.Delivers (rp : Rio) : Prop := rp.ending = .eof ∨ Complete '\n' (maxLine - 1) rp.line

/-- **The loop reads a line**, or what is left of the stream. -/
theorem readlineLoop_spec (rp : Rio) (usrbuf : List Char) (k : ℕ) (line : List Char) :
    ∃ rp' l rc, readlineLoop usrbuf k line rp = (rp', l, rc) ∧ rp'.stream = (cutLine '\n' k rp.stream).2 ∧
      rp'.ending = rp.ending ∧
      (Complete '\n' k (cutLine '\n' k rp.stream).1 → l = line ++ (cutLine '\n' k rp.stream).1 ∧ 0 ≤ rc) ∧
      (¬ Complete '\n' k (cutLine '\n' k rp.stream).1 →
        if rp.ending = .eof then l = (if line ++ rp.stream = [] then usrbuf else line ++ rp.stream) ∧ 0 ≤ rc
        else rc < 0) := by
  induction k generalizing line rp with
  | zero =>
    exact ⟨rp, line, _, rfl, rfl, rfl, fun _ => ⟨by simp [cutLine], by omega⟩, fun h => absurd (.inr rfl) h⟩
  | succ k ih =>
    cases hs : rp.stream with
    | nil =>
      obtain ⟨rp', hr, hs', hend⟩ := rioRead_nil hs
      have hno : ¬ Complete '\n' (k + 1) ([] : List Char) := by simp [Complete]
      cases he : rp.ending with
      | eof =>
        rw [readlineLoop, hr, he]
        by_cases hline : line = []
        · refine ⟨rp', usrbuf, 0, by simp [ReadEnd.got, hline], hs', hend.trans he, fun h => absurd h hno, ?_⟩
          simp [hline]
        · refine ⟨rp', line, line.length + 1, by simp [ReadEnd.got, hline], hs', hend.trans he,
            fun h => absurd h hno, fun _ => ?_⟩
          simp [hline]
          omega
      | failed =>
        rw [readlineLoop, hr, he]
        exact ⟨rp', line, -1, rfl, hs', hend.trans he, fun h => absurd h hno, fun _ => by simp⟩
    | cons c r =>
      obtain ⟨rp', hr, hs', hend⟩ := rioRead_cons hs
      rw [readlineLoop, hr]
      dsimp only
      by_cases hc : c = '\n'
      · rw [if_pos hc, cutLine, if_pos hc]
        refine ⟨rp', line ++ [c], _, rfl, hs', hend, fun _ => ⟨rfl, by omega⟩, fun h => ?_⟩
        exact absurd (.inl (by rw [hc]; rfl)) h
      · rw [if_neg hc, cutLine, if_neg hc]
        obtain ⟨rp₁, l, rc, hl, hs₁, he₁, hcomp, hinc⟩ := ih rp' (line ++ [c])
        rw [hs'] at hs₁ hcomp hinc
        refine ⟨rp₁, l, rc, hl, hs₁, he₁.trans hend, fun h => ?_, fun h => ?_⟩
        · simpa using hcomp ((complete_cons hc).mp h)
        · simpa [hend] using hinc fun h' => h ((complete_cons hc).mpr h')

theorem line_of_nil (h : rp.stream = []) : rp.line = [] := by
  rw [Rio.line, h]
  rfl

theorem line_ne_nil (h : rp.stream ≠ []) : rp.line ≠ [] := cutLine_ne_nil (by decide) h

/-- The end of the stream cuts off the last line, if no error does. -/
theorem rest_of_not_complete (h : ¬ Complete '\n' (maxLine - 1) rp.line) : rp.rest = [] :=
  (cutLine_of_not_complete h).2.1

/-- **A line is read**: the caller's buffer then holds it, or is as it was at the end of the stream. -/
theorem readlineb_ret (usrbuf : List Char) (h : rp.Delivers) : ∃ rp',
    readlineb rp usrbuf maxLine = .ret (rp', if rp.stream = [] then usrbuf else rp.line) ∧
      rp'.stream = rp.rest ∧ rp'.ending = rp.ending := by
  obtain ⟨rp', l, rc, he, hs, hend, hcomp, hinc⟩ := readlineLoop_spec rp usrbuf (maxLine - 1) []
  obtain ⟨hl, hrc⟩ : l = (if rp.stream = [] then usrbuf else rp.line) ∧ 0 ≤ rc := by
    by_cases hc : Complete '\n' (maxLine - 1) rp.line
    · obtain ⟨rfl, hrc⟩ := hcomp hc
      have hne : rp.stream ≠ [] := by
        intro hnil
        rw [line_of_nil hnil] at hc
        simp [Complete, maxLine] at hc
      rw [if_neg hne]
      exact ⟨rfl, hrc⟩
    · have heof := h.resolve_right hc
      rw [if_pos heof] at hinc
      rw [Rio.line, (cutLine_of_not_complete hc).1]
      exact hinc hc
  refine ⟨rp', ?_, hs, hend⟩
  rw [readlineb, rioReadlineb, he]
  dsimp only
  rw [if_neg hrc.not_gt, hl]

theorem readlineb_exit (usrbuf : List Char) (h : ¬ rp.Delivers) : readlineb rp usrbuf maxLine = .exit 0 := by
  obtain ⟨hend, hc⟩ := not_or.mp h
  obtain ⟨rp', l, rc, he, -, -, -, hinc⟩ := readlineLoop_spec rp usrbuf (maxLine - 1) []
  rw [if_neg hend] at hinc
  rw [readlineb, rioReadlineb, he]
  exact if_pos (hinc hc)

/-- No other line reads as an empty line. -/
theorem cstr_line : cstr rp.line = crlf ↔ rp.line = crlf := by
  constructor
  · intro h
    obtain ⟨t, ht⟩ : crlf <+: rp.line := h ▸ List.takeWhile_prefix _
    have hdrop := notMem_dropLast_cutLine '\n' (maxLine - 1) rp.stream
    rw [← Rio.line, ← ht] at hdrop
    cases t with
    | nil => rw [← ht, List.append_nil]
    | cons c t => simp [crlf] at hdrop
  · intro h
    rw [h]
    rfl

/-! ## The header loop -/

/-- There is an empty line in the stream. -/
def Rio.HasEmptyLine (rp : Rio) : Prop := IsLineOf '\n' (maxLine - 1) crlf rp.stream

/-- The header loop returns. -/
def HeadersEnd (rp : Rio) (buf : List Char) : Prop :=
  ∃ rp', Returns (fun fuel => requestReadhdrs fuel rp buf) rp'

theorem hasEmptyLine_iff : rp.HasEmptyLine ↔ rp.line = crlf ∨
    Complete '\n' (maxLine - 1) rp.line ∧ IsLineOf '\n' (maxLine - 1) crlf rp.rest :=
  isLineOf_iff rfl (by decide) (by decide)

theorem not_hasEmptyLine_of_not_complete (h : ¬ Complete '\n' (maxLine - 1) rp.line) : ¬ rp.HasEmptyLine := by
  rw [hasEmptyLine_iff]
  rintro (hl | ⟨hc, -⟩)
  · exact h (.inl (by rw [hl]; rfl))
  · exact h hc

theorem not_hasEmptyLine_of_nil (h : rp.stream = []) : ¬ rp.HasEmptyLine := by
  apply not_hasEmptyLine_of_not_complete
  rw [line_of_nil h]
  simp [Complete, maxLine]

/-- **At the end of the stream the loop goes on for ever**, unless the buffer holds an empty line. -/
theorem readhdrsLoop_of_nil {buf : List Char} (hs : rp.stream = []) (he : rp.ending = .eof)
    (hbuf : cstr buf ≠ crlf) (fuel : ℕ) : readhdrsLoop fuel rp buf = .fuel := by
  induction fuel generalizing rp with
  | zero => rfl
  | succ fuel ih =>
    have hd : rp.Delivers := .inl he
    obtain ⟨rp', hr, hs', he'⟩ := readlineb_ret buf hd
    rw [readhdrsLoop, if_neg hbuf, hr, if_pos hs, Outcome.ret_bind]
    exact ih (hs'.trans (by rw [Rio.rest, hs]; rfl)) (he'.trans he)

theorem settles_requestReadhdrs (rp : Rio) (buf : List Char) : Settles fun fuel => requestReadhdrs fuel rp buf := by
  refine .bind (.const _) fun p => ?_
  obtain ⟨rp, buf⟩ := p
  intro fuel
  induction fuel generalizing rp buf with
  | zero => exact fun h => absurd rfl h
  | succ fuel ih =>
    intro h
    dsimp only at ih h ⊢
    rw [readhdrsLoop] at h
    rw [readhdrsLoop, readhdrsLoop]
    split_ifs at h ⊢
    · rfl
    · exact Outcome.bind_of_ne_fuel (fun p => ih p.1 p.2) h

theorem requestReadhdrs_eq {rp' : Rio} {buf l : List Char} (hr : readlineb rp buf maxLine = .ret (rp', l))
    (n : ℕ) : requestReadhdrs n rp buf = readhdrsLoop n rp' l := by
  rw [requestReadhdrs, hr]
  rfl

theorem headersEnd_of_exit {buf : List Char} (h : ¬ rp.Delivers) : ¬ HeadersEnd rp buf := by
  rintro ⟨rp', N, hN⟩
  have he := hN N le_rfl
  beta_reduce at he
  unfold requestReadhdrs at he
  rw [readlineb_exit buf h] at he
  cases he

theorem headersEnd_of_empty {rp' : Rio} {buf l : List Char} (hr : readlineb rp buf maxLine = .ret (rp', l))
    (hl : cstr l = crlf) : HeadersEnd rp buf := by
  refine ⟨rp', 1, fun n hn => ?_⟩
  obtain ⟨n, rfl⟩ : ∃ m, n = m + 1 := ⟨n - 1, by omega⟩
  beta_reduce
  rw [requestReadhdrs_eq hr, readhdrsLoop, if_pos hl]

/-- Any other line is skipped. -/
theorem headersEnd_skip {rp' : Rio} {buf l : List Char} (hr : readlineb rp buf maxLine = .ret (rp', l))
    (hl : cstr l ≠ crlf) : HeadersEnd rp buf ↔ HeadersEnd rp' l := by
  have hshift : ∀ n, requestReadhdrs (n + 1) rp buf = requestReadhdrs n rp' l := by
    intro n
    rw [requestReadhdrs_eq hr, readhdrsLoop, if_neg hl]
    rfl
  unfold HeadersEnd
  simp only [← hshift, returns_succ (f := fun n => requestReadhdrs n rp buf)]

/-- At the end of the stream nothing is stored: it depends on what the buffer holds. -/
theorem headersEnd_at_end {buf : List Char} (hs : rp.stream = []) :
    HeadersEnd rp buf ↔ rp.ending = .eof ∧ cstr buf = crlf := by
  by_cases he : rp.ending = .eof
  · obtain ⟨rp', hr, hs', he'⟩ := readlineb_ret buf (.inl he)
    rw [if_pos hs] at hr
    have hnil : rp'.stream = [] := hs'.trans (by rw [Rio.rest, hs]; rfl)
    rw [and_iff_right he]
    refine ⟨fun ⟨rp₁, N, hN⟩ => ?_, headersEnd_of_empty hr⟩
    by_contra hbuf
    have hret := hN N le_rfl
    beta_reduce at hret
    rw [requestReadhdrs_eq hr, readhdrsLoop_of_nil hnil (he'.trans he) hbuf] at hret
    cases hret
  · refine iff_of_false (headersEnd_of_exit ?_) fun h => he h.1
    rintro (h | h)
    · exact he h
    · rw [line_of_nil hs] at h
      simp [Complete, maxLine] at h

/-- **The header loop returns exactly if there is an empty line**, or if no byte comes and the local buffer
happens to hold one. -/
theorem headersEnd_iff (rp : Rio) (buf : List Char) : HeadersEnd rp buf ↔
    rp.HasEmptyLine ∨ rp.stream = [] ∧ rp.ending = .eof ∧ cstr buf = crlf := by
  induction hn : rp.stream.length using Nat.strong_induction_on generalizing rp buf with
  | _ n ih =>
    subst hn
    by_cases hnil : rp.stream = []
    · rw [headersEnd_at_end hnil, or_iff_right (not_hasEmptyLine_of_nil hnil), and_iff_right hnil]
    rw [or_iff_left fun h => hnil h.1]
    by_cases hd : rp.Delivers
    · obtain ⟨rp', hr, hs', -⟩ := readlineb_ret buf hd
      rw [if_neg hnil] at hr
      by_cases hl : rp.line = crlf
      · exact iff_of_true (headersEnd_of_empty hr (cstr_line.mpr hl)) (hasEmptyLine_iff.mpr (.inl hl))
      have hshort : rp'.stream.length < rp.stream.length := by
        have hlen := congrArg List.length (cutLine_append '\n' (maxLine - 1) rp.stream)
        have hpos := List.length_pos_iff.mpr (line_ne_nil hnil)
        rw [List.length_append] at hlen
        rw [hs', Rio.rest]
        unfold Rio.line at hpos
        omega
      have hskip : cstr rp.line ≠ crlf := fun h => hl (cstr_line.mp h)
      rw [headersEnd_skip hr hskip, ih _ hshort rp' rp.line rfl, or_iff_left fun h => hskip h.2.2,
        Rio.HasEmptyLine, hs', hasEmptyLine_iff, or_iff_right hl]
      by_cases hc : Complete '\n' (maxLine - 1) rp.line
      · exact (and_iff_right hc).symm
      · rw [rest_of_not_complete hc]
        exact iff_of_false (fun ⟨pre, post, h, _⟩ => by simp [crlf] at h) fun h => hc h.1
    · refine iff_of_false (headersEnd_of_exit hd) ?_
      exact not_hasEmptyLine_of_not_complete (not_or.mp hd).2

end Stream

/-- **The header loop ends exactly if there is an empty line.** For every stream that is followed by its end,
in any chunks: `requestReadhdrs` returns if and only if the stream has an empty line. If it is empty as
a whole, the local buffer is compared without having been written. -/
theorem headers_end_iff (rp : Rio) (buf : List Char) (hend : rp.ending = .eof) :
    (∃ rp', Returns (fun fuel => requestReadhdrs fuel rp buf) rp') ↔
      IsLineOf '\n' (maxLine - 1) crlf rp.stream ∨ rp.stream = [] ∧ cstr buf = crlf := by
  have h := headersEnd_iff rp buf
  rwa [and_iff_right hend] at h

/-- `x:y` and an empty line, in three chunks with an interrupted call between them. -/
def twoLines : Rio where
  unread := []
  reads := [some ⟨['x', ':'], by decide, by decide⟩, none, some ⟨['y', '\r'], by decide, by decide⟩,
    some ⟨['\n', '\r', '\n'], by decide, by decide⟩]
  ending := .eof

theorem headers_end_iff_twoLines : ∃ rp', Returns (fun fuel => requestReadhdrs fuel twoLines []) rp' :=
  (headers_end_iff twoLines [] rfl).mpr (.inl ⟨['x', ':', 'y', '\r', '\n'], [], rfl, by decide⟩)

/-- **A client that closes its side after a header line** keeps the worker in the loop. -/
theorem headers_never_end : ¬ ∀ (rp : Rio) (buf : List Char), rp.ending = .eof →
    ∃ rp', Returns (fun fuel => requestReadhdrs fuel rp buf) rp' := by
  intro hall
  have h := hall ⟨['x', ':', 'y', '\r', '\n'], [], .eof⟩ [] rfl
  rcases (headersEnd_iff _ _).mp h with h | ⟨h, -⟩
  · rcases hasEmptyLine_iff.mp h with h | ⟨-, pre, post, h, -⟩
    · exact absurd h (by decide)
    · have hrest : Rio.rest ⟨['x', ':', 'y', '\r', '\n'], [], .eof⟩ = [] := by decide
      rw [hrest] at h
      simp [crlf] at h
  · cases h

end OsHomework.Server
