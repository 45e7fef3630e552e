import Mathlib.Algebra.Ring.Int.Defs
import Mathlib.Algebra.Ring.Nat
import SiteCode.Lib.Lines
/-!
# Template functions

What the site generator computes for a template, as far as the shortcodes of the
site call it. A string is a list of characters, and delimiters are single ones.
-/

namespace SiteCode.Hugo

abbrev Str := List Char

instance : Coe String Str := ⟨String.toList⟩

/-- What ends the rendering of a page. -/
inductive Error where
  | cast (s : Str)
  | option (s : Str)
  deriving DecidableEq, Repr

/-! ## Strings and collections -/

/-- `default DEFAULT INPUT`: an empty string counts as not set. -/
def default_ (d s : Str) : Str := if s = [] then d else s

/-- `path.Ext`: the last element of the path from its last dot on. -/
def Ext (path : Str) : Str :=
  let name := path.reverse.takeWhile (· ≠ '/')
  if '.' ∈ name then '.' :: (name.takeWhile (· ≠ '.')).reverse else []

/-- `strings.TrimPrefix PREFIX STRING` -/
def TrimPrefix (p s : Str) : Str := if p.isPrefixOf s then s.drop p.length else s

def split (s : Str) (delimiter : Char) : List Str := s.splitOn delimiter

def delimit (c : List Str) (delimiter : Char) : Str := [delimiter].intercalate c

def append {α : Type} (x : α) (c : List α) : List α := c ++ [x]

/-- `index COLLECTION INDEX`; `none` is the `nil` beyond the end. -/
def index {α : Type} (xs : List α) (i : Nat) : Option α := xs[i]?

@[simp] theorem index_zero {α : Type} (x : α) (xs : List α) : index (x :: xs) 0 = some x := rfl

@[simp] theorem index_one {α : Type} (x y : α) (xs : List α) : index (x :: y :: xs) 1 = some y := rfl

/-! ## Numbers -/

def decimal (n : Nat) : Str := Nat.toDigits 10 n

/-- `printf` for a format with one `%d`. -/
def printf : Str → Int → Str
  | '%' :: 'd' :: s, v => (if v < 0 then '-' :: decimal v.natAbs else decimal v.natAbs) ++ s
  | c :: s, v => c :: printf s v
  | [], _ => []

/-- The value of a digit; letters are digits from ten on. -/
def digit (c : Char) : Option Nat :=
  if c.isDigit then some (c.toNat - '0'.toNat)
  else if c.isAlpha then some (c.toLower.toNat - 'a'.toNat + 10)
  else none

def digits (base : Nat) (s : Str) : Option Nat :=
  if s = [] then none
  else s.foldlM (fun n c => do
    let d ← digit c
    if d < base then some (base * n + d) else none) 0

/-- The base that the front of a number stands for, and its digits. A zero in
front of other digits makes it octal. -/
def prefixed : Str → Nat × Str
  | '0' :: 'x' :: s | '0' :: 'X' :: s => (16, s)
  | '0' :: 'o' :: s | '0' :: 'O' :: s => (8, s)
  | '0' :: 'b' :: s | '0' :: 'B' :: s => (2, s)
  | '0' :: c :: s => (8, c :: s)
  | s => (10, s)

def signed : Str → Bool × Str
  | '-' :: s => (true, s)
  | '+' :: s => (false, s)
  | s => (false, s)

/-- Underscores separate digits; `saw` is the character in front, or the start. -/
def underscoreOK (saw : Char) : Str → Bool
  | [] => saw ≠ '_'
  | c :: s => if c = '_' then saw = '0' && underscoreOK '_' s else underscoreOK '0' s

/-- The value of an integer literal of Go. -/
def literal (s : Str) : Option Int :=
  let (neg, s') := signed s
  let (base, ds) := prefixed s'
  -- the sign of another base counts as a digit
  if underscoreOK (if base = 10 then '^' else '0') ds then
    (digits base (ds.filter (· ≠ '_'))).map fun n => if neg then -n else n
  else none

/-- `int`, a word of 64 bits, for a string or `nil`. A literal is read as such; which other
strings are numbers (`10.0`, the empty one) differs between versions, and `other` says it. -/
def int (other : Str → Option Int) : Option Str → Except Error Int
  | none => .ok 0
  | some s =>
    match (literal s).or (other s) with
    | some i => if -2 ^ 63 ≤ i ∧ i < 2 ^ 63 then .ok i else .error (.cast s)
    | none => .error (.cast s)

theorem digit_of_isDigit {c : Char} (h : c.isDigit) :
    digit c = some (c.toNat - '0'.toNat) ∧ c.toNat - '0'.toNat < 10 := by
  refine ⟨by simp [digit, h], ?_⟩
  simp only [Char.isDigit, Bool.and_eq_true, decide_eq_true_eq, ge_iff_le, UInt32.le_iff_toNat_le] at h
  have hc : c.toNat = c.val.toNat := rfl
  have h0 : '0'.toNat = 48 := rfl
  have h9 : '9'.val.toNat = 57 := rfl
  omega

theorem digits_eq {s : Str} (hs : s ≠ []) (hd : ∀ c ∈ s, c.isDigit) : digits 10 s = some (Nat.ofDigitChars 10 s 0) := by
  unfold digits
  rw [if_neg hs]
  generalize 0 = n
  clear hs
  induction s generalizing n with
  | nil => rfl
  | cons c s ih =>
    obtain ⟨hc, hlt⟩ := digit_of_isDigit (hd c List.mem_cons_self)
    rw [List.foldlM_cons, hc, Nat.ofDigitChars_cons, ← ih fun x hx => hd x (List.mem_cons_of_mem _ hx)]
    simp only [Option.bind_eq_bind, Option.bind_some, if_pos hlt]

theorem underscoreOK_of_digits {saw : Char} {s : Str} (hsaw : saw ≠ '_') (hd : ∀ c ∈ s, c.isDigit) :
    underscoreOK saw s = true := by
  induction s generalizing saw with
  | nil => simpa [underscoreOK] using hsaw
  | cons c s ih =>
    have hc : c ≠ '_' := by
      rintro rfl
      exact absurd (hd _ List.mem_cons_self) (by decide)
    rw [underscoreOK, if_neg hc]
    exact ih (by decide) fun x hx => hd x (List.mem_cons_of_mem _ hx)

/-- A decimal number is read as it is written. -/
theorem literal_of_digits {s : Str} (hs : s ≠ []) (hd : ∀ c ∈ s, c.isDigit) (h0 : ∀ t, s = '0' :: t → t = []) :
    literal s = some ((Nat.ofDigitChars 10 s 0 : Nat) : Int) := by
  have hsigned : signed s = (false, s) := by
    unfold signed
    split
    · exact absurd (hd '-' (by simp)) (by decide)
    · exact absurd (hd '+' (by simp)) (by decide)
    · rfl
  have hprefixed : prefixed s = (10, s) := by
    unfold prefixed
    split
    all_goals first | rfl | exact absurd (h0 _ rfl) (by simp)
  have hfilter : s.filter (· ≠ '_') = s := by
    rw [List.filter_eq_self]
    rintro c hc
    have hdigit := hd c hc
    rw [decide_eq_true_iff]
    rintro rfl
    exact absurd hdigit (by decide)
  unfold literal
  simp only [hsigned, hprefixed, hfilter, digits_eq hs hd]
  rw [if_pos (underscoreOK_of_digits (by decide) hd)]
  rfl

example : literal "1_0" = some 10 ∧ literal "0x_1f" = some 31 ∧ literal "1_" = none := by decide

theorem isDigit_of_mem_decimal {n : Nat} : ∀ c ∈ decimal n, c.isDigit :=
  fun _ hc => Nat.isDigit_of_mem_toDigits (by decide) (by decide) hc

theorem not_mem_decimal {c : Char} (hc : c.isDigit = false) (n : Nat) : c ∉ decimal n := by
  intro h
  rw [isDigit_of_mem_decimal c h] at hc
  cases hc

theorem decimal_zero_cons {n : Nat} {t : Str} (h : decimal n = '0' :: t) : t = [] := by
  induction n using Nat.strongRecOn generalizing t with
  | ind n ih =>
    unfold decimal at h
    by_cases hn : n < 10
    · rw [Nat.toDigits_of_lt_base hn] at h
      exact (List.cons.inj h).2.symm
    · rw [Nat.toDigits_of_base_le (by decide) (Nat.not_lt.1 hn)] at h
      obtain ⟨c, u, hu⟩ := List.exists_cons_of_ne_nil (Nat.toDigits_ne_nil (n := n / 10) (b := 10))
      rw [hu, List.cons_append] at h
      obtain ⟨rfl, -⟩ := List.cons.inj h
      -- the front of `n` is a single zero, so `n` has one digit
      obtain rfl := ih (n / 10) (by omega) hu
      have hval := Nat.ofDigitChars_ten_toDigits (n := n / 10)
      rw [hu] at hval
      have h0 : Nat.ofDigitChars 10 ['0'] 0 = 0 := by decide
      omega

theorem int_decimal (other : Str → Option Int) (n : Nat) :
    int other (some (decimal n)) = if n < 2 ^ 63 then .ok (n : Int) else .error (.cast (decimal n)) := by
  have h : literal (decimal n) = some (n : Int) := by
    rw [literal_of_digits (s := decimal n) Nat.toDigits_ne_nil isDigit_of_mem_decimal fun t => decimal_zero_cons,
      decimal, Nat.ofDigitChars_ten_toDigits]
  have hfits : (-2 ^ 63 ≤ (n : Int) ∧ (n : Int) < 2 ^ 63) = (n < 2 ^ 63) := by
    rw [eq_iff_iff]
    omega
  unfold int
  simp only [h, Option.some_or, hfits]

theorem int_lt {other : Str → Option Int} {s : Option Str} {i : Int} (h : int other s = .ok i) : i < 2 ^ 63 := by
  unfold int at h
  split at h
  · cases h
    decide
  · split at h
    · split at h
      · next hfits =>
        cases h
        exact hfits.2
      · cases h
    · cases h

/-! ## Highlighted code -/

/-- What `highlight` puts on the page. -/
structure Listing where
  code : Str
  lang : Str
  options : List (Str × Str)
  lineNoStart : Int
  deriving DecidableEq, Repr

/-- An option is `key=value`. -/
def option (s : Str) : Except Error (Str × Str) :=
  match split s '=' with
  | [key, value] => .ok (key, value)
  | _ => .error (.option s)

/-- The number of the first line, 1 unless an option says otherwise. -/
def lineNoStart (options : List (Str × Str)) : Except Error Int :=
  match options.lookup ("lineNoStart" : Str) with
  | some v => int (fun _ => none) (some v)
  | none => .ok 1

/-- `highlight CODE LANG OPTIONS` -/
def highlight (code lang opts : Str) : Except Error Listing := do
  let options ← if opts = [] then pure [] else (split opts ',').mapM option
  let start ← lineNoStart options
  return ⟨code, lang, options, start⟩

namespace Listing

/-- Whether lines are numbered: unless an option says no, since the site's settings say yes. -/
def lineNos (l : Listing) : Bool := l.options.lookup ("lineNos" : Str) ≠ some ("false" : Str)

/-- The lines on the page, each with the number in front of it. -/
def rows (l : Listing) : List (Option Int × Str) :=
  (split l.code '\n').zipIdx.map fun (line, i) => (if l.lineNos then some (l.lineNoStart + i) else none, line)

end Listing

theorem option_eq {key value : Str} (hk : '=' ∉ key) (hv : '=' ∉ value) :
    option (key ++ '=' :: value) = .ok (key, value) := by
  have hsplit : split (key ++ '=' :: value) '=' = [key, value] := by
    rw [split, List.splitOn_append_cons_self_of_not_mem hk, List.splitOn_eq_singleton hv]
  rw [option, hsplit]

/-- A list of options is read back. -/
theorem highlight_eq (code lang : Str) {opts : List Str} {options : List (Str × Str)} {start : Int} (hne : opts ≠ [])
    (hopts : ∀ o ∈ opts, ',' ∉ o) (hd : delimit opts ',' ≠ []) (hm : opts.mapM option = .ok options)
    (hstart : lineNoStart options = .ok start) :
    highlight code lang (delimit opts ',') = .ok ⟨code, lang, options, start⟩ := by
  have hsplit : split (delimit opts ',') ',' = opts := List.splitOn_intercalate _ hopts hne
  unfold highlight
  rw [if_neg hd, hsplit, hm]
  change lineNoStart options >>= _ = _
  rw [hstart]
  rfl

end SiteCode.Hugo
