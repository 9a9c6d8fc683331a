/-! Splitting a character list at the first place where a condition holds. -/
namespace HtmlQuery
namespace Scan

/-- The characters that separate words inside markup. -/
def isMarkupBlank (c : Char) : Bool :=
  c == ' ' || c == '\t' || c == '\n' || c == '\r' || c == '\x0c'

def isQuote (c : Char) : Bool := c == '\x22' || c == '\x27'

/-- Drops one pair of equal quotes around a text. -/
def unquote (s : List Char) : List Char :=
  match s with
  | q :: r@(_ :: _) => if isQuote q && r.getLast? == some q then r.dropLast else s
  | _ => s

def trimMarkupBlanks (s : List Char) : List Char :=
  ((s.dropWhile isMarkupBlank).reverse.dropWhile isMarkupBlank).reverse

/-- The number of bytes that the characters take in UTF-8. -/
def byteSize : List Char → Nat
  | [] => 0
  | c :: cs => c.utf8Size + byteSize cs

@[simp] theorem byteSize_nil : byteSize [] = 0 := rfl

@[simp] theorem byteSize_cons (c : Char) (s : List Char) :
    byteSize (c :: s) = c.utf8Size + byteSize s := rfl

@[simp] theorem byteSize_append (s t : List Char) : byteSize (s ++ t) = byteSize s + byteSize t := by
  induction s with
  | nil => simp
  | cons c cs ih => simp [ih, Nat.add_assoc]

/-- Splits before the first occurrence of `lit`, or after everything. -/
def breakAt (lit : List Char) : List Char → List Char × List Char
  | [] => ([], [])
  | c :: cs =>
    if lit.isPrefixOf (c :: cs) then ([], c :: cs)
    else
      let r := breakAt lit cs
      (c :: r.1, r.2)

theorem breakAt_append (lit s : List Char) : (breakAt lit s).1 ++ (breakAt lit s).2 = s := by
  induction s with
  | nil => rfl
  | cons c cs ih =>
    simp only [breakAt]
    split <;> simp [ih]

/-- Splits before the first occurrence of `lit` outside quoted runs. -/
def breakOutsideQuotes (lit : List Char) : Option Char → List Char → List Char × List Char
  | _, [] => ([], [])
  | none, c :: cs =>
    if lit.isPrefixOf (c :: cs) then ([], c :: cs)
    else
      let r := breakOutsideQuotes lit (if isQuote c then some c else none) cs
      (c :: r.1, r.2)
  | some q, c :: cs =>
    let r := breakOutsideQuotes lit (if c = q then none else some q) cs
    (c :: r.1, r.2)

theorem breakOutsideQuotes_append (lit : List Char) (q : Option Char) (s : List Char) :
    (breakOutsideQuotes lit q s).1 ++ (breakOutsideQuotes lit q s).2 = s := by
  induction s generalizing q with
  | nil => cases q <;> rfl
  | cons c cs ih =>
    cases q with
    | none =>
      simp only [breakOutsideQuotes]
      split <;> simp [ih]
    | some q => simp [breakOutsideQuotes, ih]

def takeLiteral (lit : List Char) (r : List Char × List Char) : List Char × List Char :=
  if !lit.isEmpty && lit.isPrefixOf r.2 then (r.1 ++ lit, r.2.drop lit.length) else r

theorem takeLiteral_append (lit : List Char) (r : List Char × List Char) :
    (takeLiteral lit r).1 ++ (takeLiteral lit r).2 = r.1 ++ r.2 := by
  unfold takeLiteral
  split
  · next h =>
    simp only [Bool.and_eq_true] at h
    obtain ⟨u, hu⟩ := List.isPrefixOf_iff_prefix.mp h.2
    rw [← hu]
    simp
  · rfl

/-- Splits before the first character of `set`, or after everything. -/
def breakAtAny (set : List Char) (s : List Char) : List Char × List Char :=
  (s.takeWhile (fun c => !set.contains c), s.dropWhile (fun c => !set.contains c))

theorem breakAtAny_append (set s : List Char) : (breakAtAny set s).1 ++ (breakAtAny set s).2 = s :=
  List.takeWhile_append_dropWhile

def spanOf (set : List Char) (s : List Char) : List Char × List Char :=
  (s.takeWhile set.contains, s.dropWhile set.contains)

theorem spanOf_append (set s : List Char) : (spanOf set s).1 ++ (spanOf set s).2 = s :=
  List.takeWhile_append_dropWhile

/-- Whether `s` starts with `tag` followed by the end, `>`, `/` or a markup blank. -/
def startsWithTag (tag s : List Char) : Bool :=
  tag.isPrefixOf s &&
    match s.drop tag.length with
    | [] => true
    | c :: _ => c == '>' || c == '/' || isMarkupBlank c

/-- Splits before the tag `closeTag` that closes the level `depth`. -/
def breakBalanced (openTag closeTag : List Char) : Nat → List Char → Option (List Char × List Char)
  | _, [] => none
  | depth, c :: cs =>
    if startsWithTag closeTag (c :: cs) then
      if depth = 0 then some ([], c :: cs)
      else (breakBalanced openTag closeTag (depth - 1) cs).map fun r => (c :: r.1, r.2)
    else
      let inner := if startsWithTag openTag (c :: cs) then depth + 1 else depth
      (breakBalanced openTag closeTag inner cs).map fun r => (c :: r.1, r.2)

theorem breakBalanced_append {openTag closeTag : List Char} {depth : Nat} {s inner rest : List Char}
    (h : breakBalanced openTag closeTag depth s = some (inner, rest)) : inner ++ rest = s := by
  induction s generalizing depth inner rest with
  | nil => simp [breakBalanced] at h
  | cons c cs ih =>
    simp only [breakBalanced] at h
    split at h
    · split at h
      · simp only [Option.some.injEq, Prod.mk.injEq] at h
        obtain ⟨rfl, rfl⟩ := h
        rfl
      · obtain ⟨r, hr, hr2⟩ := Option.map_eq_some_iff.mp h
        simp only [Prod.mk.injEq] at hr2
        obtain ⟨rfl, rfl⟩ := hr2
        simp [ih hr]
    · obtain ⟨r, hr, hr2⟩ := Option.map_eq_some_iff.mp h
      simp only [Prod.mk.injEq] at hr2
      obtain ⟨rfl, rfl⟩ := hr2
      simp [ih hr]

/-- Splits after the fewest leading characters that take at least `n` bytes. -/
def splitAtByte : Nat → List Char → List Char × List Char
  | 0, s => ([], s)
  | _ + 1, [] => ([], [])
  | n + 1, c :: cs =>
    let r := splitAtByte (n + 1 - c.utf8Size) cs
    (c :: r.1, r.2)

theorem splitAtByte_append (n : Nat) (s : List Char) :
    (splitAtByte n s).1 ++ (splitAtByte n s).2 = s := by
  induction s generalizing n with
  | nil => cases n <;> rfl
  | cons c cs ih => cases n <;> simp [splitAtByte, ih]

end Scan
end HtmlQuery
