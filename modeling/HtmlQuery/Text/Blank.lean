import HtmlQuery.Text.Scan

/-! White space as Unicode defines it: the 25 characters of the property White_Space. -/
namespace HtmlQuery
namespace Blank

/-- The Unicode property White_Space. -/
def isWhiteSpace (c : Char) : Bool :=
  let n := c.toNat
  (0x9 ≤ n && n ≤ 0xD) || n == 0x20 || n == 0x85 || n == 0xA0 || n == 0x1680 ||
    (0x2000 ≤ n && n ≤ 0x200A) || n == 0x2028 || n == 0x2029 || n == 0x202F || n == 0x205F ||
    n == 0x3000

def trim (s : List Char) : List Char :=
  ((s.dropWhile isWhiteSpace).reverse.dropWhile isWhiteSpace).reverse

/-- The maximal runs of characters that are not white space, in order. -/
def words (s : List Char) : List (List Char) :=
  (s.splitOnP isWhiteSpace).filter (!·.isEmpty)

theorem isWhiteSpace_of_isMarkupBlank {c : Char} (h : Scan.isMarkupBlank c = true) :
    isWhiteSpace c = true := by
  simp only [Scan.isMarkupBlank, Bool.or_eq_true, beq_iff_eq] at h
  rcases h with (((rfl | rfl) | rfl) | rfl) | rfl <;> decide

example : isWhiteSpace '\u3000' && isWhiteSpace '\xa0' && !isWhiteSpace '\u200b' := by decide

end Blank
end HtmlQuery
