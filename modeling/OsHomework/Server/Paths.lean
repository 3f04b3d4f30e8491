import OsHomework.Server.Request

/-!
# The file that a request names

What `requestParseURI` makes of a uri, as functions of the uri alone, and that the file name stays below the
directory of the server.

* `InBounds`, `Defined`: a call returns a value within the bounds if a condition holds, and leaves the bounds if not;
* `isStatic`, `fileOf`, `argsOf`, and **`requestParseURI_spec`**: if the arrays are large enough, these are what the
  call returns;
* `not_hasParent_append`: a pair of dots does not arise at a boundary with another character on one side;
* **`path_confinement`**: no file outside of the directory is named.
-/

set_option autoImplicit false

namespace OsHomework.Server

open Logged

/-! ## Bounds -/

/-- A string and its terminator fit into the array, and no index is negative. -/
def Event.InBounds : Event → Prop
  | .store size s => s.length < size
  | .index i => 0 ≤ i
  | _ => True

/-- `x` returns `a` within the bounds if `ok` holds, and goes out of bounds if not. -/
structure Defined {α : Type} (x : Logged Event α) (ok : Prop) (a : α) : Prop where
  ret : ok → x.out = .ret a ∧ Within Event.InBounds x
  ub : ¬ ok → x.out = .ub ∧ ¬ Within Event.InBounds x

section Defined

variable {α β : Type} {x : Logged Event α} {f : α → Logged Event β} {p q : Prop} {a : α} {b : β} {size : ℕ}
  {s : List Char}

theorem put_out : (put size s).out = if s.length < size then .ret s else .ub := rfl

theorem put_ret (h : s.length < size) : (put size s).out = .ret s := if_pos h

@[simp] theorem within_put : Within Event.InBounds (put size s) ↔ s.length < size := by
  simp [put, Within, Event.InBounds]

@[simp] theorem within_log {e : Event} : Within Event.InBounds (log e) ↔ e.InBounds := by
  simp [log, Within]

@[simp] theorem log_out (e : Event) : (log e).out = .ret () := rfl

theorem Defined.congr (h : Defined x p a) (hpq : p ↔ q) : Defined x q a :=
  ⟨fun hq => h.ret (hpq.mpr hq), fun hq => h.ub fun hp => hq (hpq.mp hp)⟩

theorem Defined.pure (a : α) : Defined (pure a) True a :=
  ⟨fun _ => ⟨rfl, Within.pure a⟩, fun h => absurd trivial h⟩

theorem Defined.put (size : ℕ) (s : List Char) : Defined (put size s) (s.length < size) s :=
  ⟨fun h => ⟨put_ret h, within_put.mpr h⟩, fun h => ⟨if_neg h, fun hw => h (within_put.mp hw)⟩⟩

/-- **The rule for sequences.** -/
theorem Defined.bind (hx : Defined x p a) (hf : p → Defined (f a) q b) : Defined (x >>= f) (p ∧ q) b := by
  refine ⟨fun ⟨hp, hq⟩ => ?_, fun hpq => ?_⟩
  · obtain ⟨ho, hw⟩ := hx.ret hp
    obtain ⟨ho', hw'⟩ := (hf hp).ret hq
    refine ⟨by rw [out_bind, ho]; exact ho', hw.bind fun a' ha' => ?_⟩
    obtain rfl := Outcome.ret.inj (ho.symm.trans ha')
    exact hw'
  · by_cases hp : p
    · obtain ⟨ho', hw'⟩ := (hf hp).ub fun hq => hpq ⟨hp, hq⟩
      have ho := (hx.ret hp).1
      exact ⟨by rw [out_bind, ho]; exact ho', fun h => hw' ((within_bind_iff.mp h).2 a ho)⟩
    · obtain ⟨ho, hw⟩ := hx.ub hp
      exact ⟨by rw [out_bind, ho]; rfl, fun h => hw (within_bind_iff.mp h).1⟩

theorem Defined.map (hx : Defined x p a) (g : α → β) : Defined (x >>= fun a => Pure.pure (g a)) p (g a) :=
  (hx.bind fun _ => .pure (g a)).congr (and_iff_left trivial)

theorem Defined.within (h : Defined x p a) : Within Event.InBounds x ↔ p := by
  by_cases hp : p
  · exact iff_of_true (h.ret hp).2 hp
  · exact iff_of_false (h.ub hp).2 hp

theorem Defined.lastChar (l : List Char) (c : Char) : Defined (lastChar (l ++ [c])) True c := by
  refine ⟨fun _ => ⟨?_, ?_⟩, fun h => absurd trivial h⟩
  · rw [OsHomework.Server.lastChar, List.getLast?_concat]
  · simp [OsHomework.Server.lastChar, Within, Event.InBounds]

theorem Defined.lastChar_nil (c : Char) : Defined (OsHomework.Server.lastChar []) False c :=
  ⟨fun h => h.elim, fun _ => ⟨rfl, by simp [OsHomework.Server.lastChar, Within, Event.InBounds]⟩⟩

end Defined

/-! ## The parts of a uri -/

/-- Two dots in a row. -/
abbrev HasParent (s : List Char) : Prop := "..".toList <:+: s

/-- The directory of the server. -/
def publicDir : List Char := "./public/".toList

def isStatic (uri : List Char) : Bool := HasParent uri ∨ ¬ "cgi".toList <:+: uri

def fileOf (uri : List Char) : List Char :=
  if HasParent uri then publicDir ++ "home.html".toList
  else if isStatic uri then publicDir ++ uri ++ if uri.getLast? = some '/' then "home.html".toList else []
  else publicDir ++ uri.takeWhile (· ≠ '?')

/-- The arguments; `cgiargs` is what the array held before. -/
def argsOf (uri cgiargs : List Char) : List Char :=
  if HasParent uri then cgiargs else if isStatic uri then [] else (uri.dropWhile (· ≠ '?')).tail

section Parse

variable {size : ℕ} {uri : List Char}

theorem isStatic_iff : isStatic uri ↔ HasParent uri ∨ ¬ "cgi".toList <:+: uri := decide_eq_true_iff

theorem takeWhile_of_notMem {c : Char} (h : c ∉ uri) : uri.takeWhile (· ≠ c) = uri := by
  rw [List.takeWhile_eq_self_iff]
  intro d hd
  simp only [ne_eq, decide_not, Bool.not_eq_true', decide_eq_false_iff_not]
  rintro rfl
  exact h hd

theorem dropWhile_of_notMem {c : Char} (h : c ∉ uri) : uri.dropWhile (· ≠ c) = [] := by
  have happ := List.takeWhile_append_dropWhile (p := (· ≠ c)) (l := uri)
  rw [takeWhile_of_notMem h] at happ
  exact List.append_right_eq_self.mp happ

theorem length_lt_of_append {a b : List Char} (h : (a ++ b).length < size) : a.length < size := by
  rw [List.length_append] at h
  omega

theorem length_args_le (uri : List Char) : (uri.dropWhile (· ≠ '?')).tail.length ≤ uri.length := by
  have := (List.dropWhile_suffix (p := (· ≠ '?')) (l := uri)).length_le
  rw [List.length_tail]
  omega

theorem parse_parent (h : HasParent uri) (cgiargs : List Char) :
    requestParseURI size uri cgiargs = (do
      let filename ← put size (fileOf uri)
      pure (isStatic uri, filename, argsOf uri cgiargs)) := by
  unfold requestParseURI fileOf isStatic argsOf
  rw [if_pos h, if_pos h, if_pos h, decide_eq_true (.inl h)]
  rfl

theorem parse_static (hp : ¬ HasParent uri) (h : isStatic uri) (cgiargs : List Char) :
    requestParseURI size uri cgiargs = (do
      let cgiargs ← put size (argsOf uri cgiargs)
      let filename ← put size (publicDir ++ uri)
      let last ← lastChar uri
      if last = '/' then
        let filename ← put size (filename ++ "home.html".toList)
        pure (true, filename, cgiargs)
      else pure (true, filename, cgiargs)) := by
  unfold requestParseURI argsOf
  rw [if_neg hp, if_neg hp, if_pos h, if_pos ((isStatic_iff.mp h).resolve_left hp)]
  rfl

/-- Without a question mark, the part before it is all of the uri. -/
theorem parse_dynamic (hp : ¬ HasParent uri) (h : isStatic uri = false) (cgiargs : List Char) :
    requestParseURI size uri cgiargs = (do
      let cgiargs ← put size (argsOf uri cgiargs)
      let filename ← put size (fileOf uri)
      pure (false, filename, cgiargs)) := by
  have hstatic : ¬ isStatic uri := by
    rw [h]
    exact Bool.false_ne_true
  have hcgi : ¬ ¬ "cgi".toList <:+: uri := fun hno => hstatic (isStatic_iff.mpr (.inr hno))
  unfold requestParseURI fileOf argsOf
  rw [if_neg hp, if_neg hp, if_neg hp, if_neg hcgi, if_neg hstatic, if_neg hstatic]
  split_ifs with hq
  · rfl
  · rw [takeWhile_of_notMem hq, dropWhile_of_notMem hq]
    rfl

theorem fileOf_static (hp : ¬ HasParent uri) (h : isStatic uri) :
    fileOf uri = publicDir ++ uri ++ if uri.getLast? = some '/' then "home.html".toList else [] := by
  rw [fileOf, if_neg hp, if_pos h]

/-- There is a uri, and what is made of it fits into the arrays. -/
def ParseFits (size : ℕ) (uri : List Char) : Prop :=
  uri ≠ [] ∧ (fileOf uri).length < size ∧ (argsOf uri []).length < size

instance (size : ℕ) (uri : List Char) : Decidable (ParseFits size uri) := by unfold ParseFits; infer_instance

theorem parseFits_iff (hlen : uri.length < size) : ParseFits size uri ↔ uri ≠ [] ∧ (fileOf uri).length < size := by
  refine and_congr_right fun _ => and_iff_left ?_
  unfold argsOf
  split_ifs
  · exact (Nat.zero_le _).trans_lt hlen
  · exact (Nat.zero_le _).trans_lt hlen
  · exact (length_args_le uri).trans_lt hlen

/-- The end of the static branch. -/
theorem index_page_spec {filename : List Char} (hfit : filename.length < size) (cgiargs : List Char) :
    Defined (do
      let last ← lastChar uri
      if last = '/' then
        let filename ← put size (filename ++ "home.html".toList)
        pure (true, filename, cgiargs)
      else pure (true, filename, cgiargs))
      (uri ≠ [] ∧ (filename ++ if uri.getLast? = some '/' then "home.html".toList else []).length < size)
      (true, filename ++ (if uri.getLast? = some '/' then "home.html".toList else []), cgiargs) := by
  rcases List.eq_nil_or_concat' uri with rfl | ⟨l, c, rfl⟩
  · exact ((Defined.lastChar_nil '/').bind (q := True) fun h => h.elim).congr
      ⟨fun h => h.1.elim, fun h => absurd rfl h.1⟩
  rw [List.getLast?_concat]
  have hne : l ++ [c] ≠ [] := by simp
  by_cases hc : c = '/'
  · rw [if_pos (congrArg some hc)]
    refine ((Defined.lastChar l c).bind (fun _ => ?_)).congr (and_congr_left' (iff_of_true trivial hne))
    rw [if_pos hc]
    exact (Defined.put size _).map _
  · rw [if_neg fun he => hc (Option.some.inj he), List.append_nil]
    refine ((Defined.lastChar l c).bind (q := True) (fun _ => ?_)).congr
      (iff_of_true ⟨trivial, trivial⟩ ⟨hne, hfit⟩)
    rw [if_neg hc]
    exact .pure _

/-- **The parser** returns the file and the arguments if they fit and if there is a uri at all. -/
theorem requestParseURI_spec (size : ℕ) (uri cgiargs : List Char) :
    Defined (requestParseURI size uri cgiargs) (ParseFits size uri) (isStatic uri, fileOf uri, argsOf uri cgiargs) := by
  unfold ParseFits
  by_cases hp : HasParent uri
  · have hne : uri ≠ [] := by
      rintro rfl
      exact absurd hp (by decide)
    have hargs : argsOf uri [] = [] := if_pos hp
    rw [parse_parent hp, hargs]
    refine ((Defined.put size _).map _).congr ⟨fun h => ⟨hne, h, (Nat.zero_le _).trans_lt h⟩, fun h => h.2.1⟩
  have hargs : argsOf uri cgiargs = argsOf uri [] := by rw [argsOf, argsOf, if_neg hp, if_neg hp]
  cases h : isStatic uri with
  | false =>
    have hne : uri ≠ [] := by
      rintro rfl
      exact absurd h (by decide)
    rw [parse_dynamic hp h, hargs]
    refine ((Defined.put size _).bind fun _ => (Defined.put size _).map _).congr ?_
    rw [and_iff_right hne]
    exact and_comm
  | true =>
    rw [parse_static hp h, hargs, fileOf_static hp h]
    refine ((Defined.put size _).bind fun _ => (Defined.put size _).bind fun hfit => index_page_spec hfit _).congr ?_
    exact ⟨fun ⟨ha, _, hne, hf⟩ => ⟨hne, hf, ha⟩, fun ⟨hne, hf, ha⟩ => ⟨ha, length_lt_of_append hf, hne, hf⟩⟩

/-! ## Confinement -/

/-- **A pair of dots does not arise at a boundary**, unless there is a dot on both sides. -/
theorem not_hasParent_append {a b : List Char} (ha : ¬ HasParent a) (hb : ¬ HasParent b)
    (h : a.getLast? ≠ some '.' ∨ b.head? ≠ some '.') : ¬ HasParent (a ++ b) := by
  intro hab
  rcases List.infix_append_iff.mp hab with hin | hin | ⟨l₁, l₂, he, hl₁, hl₂⟩
  · exact ha hin
  · exact hb hin
  match l₁, he with
  | [], he =>
    obtain rfl : "..".toList = l₂ := he
    exact hb hl₂.isInfix
  | [c], he =>
    obtain ⟨rfl, rfl⟩ : '.' = c ∧ ['.'] = l₂ := by simpa using he
    rcases h with h | h
    · obtain ⟨r, rfl⟩ := hl₁
      exact h (List.getLast?_concat ..)
    · obtain ⟨r, rfl⟩ := hl₂
      exact h rfl
  | c :: d :: l, he =>
    obtain ⟨rfl, rfl, rfl, -⟩ : '.' = c ∧ '.' = d ∧ l = [] ∧ l₂ = [] := by simpa using he
    exact ha hl₁.isInfix

theorem not_hasParent_publicDir : ¬ HasParent publicDir := by
  show ¬ ['.', '.'] <:+: ['.', '/', 'p', 'u', 'b', 'l', 'i', 'c', '/']
  decide

theorem not_hasParent_home : ¬ HasParent "home.html".toList := by
  show ¬ ['.', '.'] <:+: ['h', 'o', 'm', 'e', '.', 'h', 't', 'm', 'l']
  decide

theorem publicDir_prefix (uri : List Char) : publicDir <+: fileOf uri := by
  unfold fileOf
  split_ifs
  · exact List.prefix_append _ _
  · rw [List.append_assoc]
    exact List.prefix_append _ _
  · rw [List.append_assoc]
    exact List.prefix_append _ _
  · exact List.prefix_append _ _

/-- **No file outside**: the edits of the uri do not make a reference to the parent directory. -/
theorem not_hasParent_fileOf (uri : List Char) : ¬ HasParent (fileOf uri) := by
  have hdir : publicDir.getLast? ≠ some '.' := by decide
  unfold fileOf
  split_ifs with hp h hlast
  · exact not_hasParent_append not_hasParent_publicDir not_hasParent_home (.inl hdir)
  · apply not_hasParent_append (not_hasParent_append not_hasParent_publicDir hp (.inl hdir)) not_hasParent_home
    exact .inr (by decide)
  · rw [List.append_nil]
    exact not_hasParent_append not_hasParent_publicDir hp (.inl hdir)
  · refine not_hasParent_append not_hasParent_publicDir (fun h => hp ?_) (.inl hdir)
    exact h.trans (List.takeWhile_prefix _).isInfix

theorem length_fileOf_le (uri : List Char) : (fileOf uri).length ≤ uri.length + 18 := by
  have hdir : publicDir.length = 9 := by decide
  have hhome : "home.html".toList.length = 9 := by decide
  have htake := (List.takeWhile_prefix (p := (· ≠ '?')) (l := uri)).length_le
  unfold fileOf
  split_ifs <;> simp only [List.length_append, List.length_nil] <;> omega

/-- **Path confinement.** For every uri that is not empty, in arrays that are large enough: the file is in the
directory of the server and its name has no reference to a parent directory. If the request is dynamic, the
first question mark separates the file and the arguments. If it is static, the same file is found and
answered whatever is in the array of the arguments. -/
theorem path_confinement {size : ℕ} {uri : List Char} (hne : uri ≠ []) (hsize : uri.length + 18 < size)
    (old : List Char) : ∃ isStatic filename cgiargs,
    (requestParseURI size uri old).out = .ret (isStatic, filename, cgiargs) ∧
      publicDir <+: filename ∧ ¬ "..".toList <:+: filename ∧
      (isStatic = false → filename = publicDir ++ uri.takeWhile (· ≠ '?') ∧
        cgiargs = (uri.dropWhile (· ≠ '?')).tail) ∧
      (isStatic = true →
        (∀ old', ∃ cgiargs', (requestParseURI size uri old').out = .ret (true, filename, cgiargs')) ∧
        ∀ os sink cgiargs' stats arrivalTime dispatchInterval,
          serveFile os sink true filename cgiargs' stats arrivalTime dispatchInterval =
            serveFile os sink true filename cgiargs stats arrivalTime dispatchInterval) := by
  have hfit : uri ≠ [] ∧ (fileOf uri).length < size := ⟨hne, (length_fileOf_le uri).trans_lt hsize⟩
  have hout : ∀ old', (requestParseURI size uri old').out = .ret (isStatic uri, fileOf uri, argsOf uri old') := by
    intro old'
    exact ((requestParseURI_spec size uri old').ret ((parseFits_iff (by omega)).mpr hfit)).1
  refine ⟨_, _, _, hout old, publicDir_prefix uri, not_hasParent_fileOf uri, fun h => ?_, fun h => ⟨fun old' => ?_, ?_⟩⟩
  · have hstatic : ¬ isStatic uri := by
      rw [h]
      exact Bool.false_ne_true
    have hp : ¬ HasParent uri := fun hp => hstatic (isStatic_iff.mpr (.inl hp))
    unfold fileOf argsOf
    rw [if_neg hp, if_neg hp, if_neg hstatic, if_neg hstatic]
    exact ⟨rfl, rfl⟩
  · exact ⟨_, by rw [hout old', h]⟩
  · intro os sink cgiargs' stats arrivalTime dispatchInterval
    simp only [serveFile, if_true]

theorem path_confinement_output : ∃ isStatic filename cgiargs,
    (requestParseURI 8192 "/output.cgi?0.1".toList []).out = .ret (isStatic, filename, cgiargs) ∧
      publicDir <+: filename ∧ ¬ "..".toList <:+: filename :=
  let ⟨isStatic, filename, cgiargs, hout, hdir, hparent, _⟩ :=
    @path_confinement 8192 "/output.cgi?0.1".toList (by decide) (by decide) []
  ⟨isStatic, filename, cgiargs, hout, hdir, hparent⟩

end Parse

end OsHomework.Server
