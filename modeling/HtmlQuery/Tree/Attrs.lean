/-! Attributes of an element: a map from names to values, kept as a list sorted by name with one
entry per name. Writing a name that is present replaces its value, so the last write wins. -/
namespace HtmlQuery

/-- An attribute's value: text, or a bare flag such as `disabled`, which reads as empty text. -/
inductive AttrValue where
  | text (value : String)
  | flag
deriving DecidableEq, Repr, Inhabited

/-- The text a value reads as. -/
def AttrValue.asText : AttrValue → String
  | .text v => v
  | .flag => ""

/-- Attribute entries sorted by name, one per name. -/
structure Attrs where
  entries : List (String × AttrValue)
deriving DecidableEq, Repr, Inhabited

namespace Attrs

def empty : Attrs := ⟨[]⟩

/-- Puts `(name, v)` into a sorted entry list, in place of the entry of the same name. -/
def insertEntry (name : String) (v : AttrValue) : List (String × AttrValue) → List (String × AttrValue)
  | [] => [(name, v)]
  | (k, w) :: rest =>
    if name = k then (name, v) :: rest
    else if name < k then (name, v) :: (k, w) :: rest
    else (k, w) :: insertEntry name v rest

def eraseEntry (name : String) : List (String × AttrValue) → List (String × AttrValue)
  | [] => []
  | (k, w) :: rest => if name = k then rest else (k, w) :: eraseEntry name rest

def lookupEntry (key : String) : List (String × AttrValue) → Option AttrValue
  | [] => none
  | (k, w) :: rest => if key = k then some w else lookupEntry key rest

def get? (a : Attrs) (name : String) : Option AttrValue := lookupEntry name a.entries

def contains (a : Attrs) (name : String) : Bool := (a.get? name).isSome

def insert (a : Attrs) (name : String) (v : AttrValue) : Attrs := ⟨insertEntry name v a.entries⟩

def erase (a : Attrs) (name : String) : Attrs := ⟨eraseEntry name a.entries⟩

/-- The map holding the pairs of `l`, a later pair of a name replacing an earlier one. -/
def ofList (l : List (String × AttrValue)) : Attrs := l.foldl (fun a p => a.insert p.1 p.2) empty

theorem lookupEntry_insertEntry (name key : String) (v : AttrValue) (l : List (String × AttrValue)) :
    lookupEntry key (insertEntry name v l) = if key = name then some v else lookupEntry key l := by
  induction l with
  | nil => simp [insertEntry, lookupEntry]
  | cons p rest ih =>
    obtain ⟨k, w⟩ := p
    by_cases h1 : name = k
    · subst h1
      by_cases h : key = name <;> simp [insertEntry, lookupEntry, h]
    · by_cases h2 : name < k
      · by_cases h : key = name <;> simp [insertEntry, lookupEntry, h, h1, h2]
      · by_cases h : key = k
        · subst h
          simp [insertEntry, lookupEntry, h1, h2, Ne.symm h1]
        · simp [insertEntry, lookupEntry, h1, h2, h, ih]

theorem lookupEntry_eraseEntry (name key : String) (l : List (String × AttrValue))
    (h : l.Pairwise (fun a b => a.1 ≠ b.1)) :
    lookupEntry key (eraseEntry name l) = if key = name then none else lookupEntry key l := by
  induction l with
  | nil => simp [eraseEntry, lookupEntry]
  | cons p rest ih =>
    obtain ⟨k, w⟩ := p
    simp only [List.pairwise_cons] at h
    by_cases h1 : name = k
    · subst h1
      by_cases hk : key = name
      · subst hk
        simp only [eraseEntry, if_true, lookupEntry]
        clear ih
        induction rest with
        | nil => rfl
        | cons q r ihr =>
          have hq : key ≠ q.1 := h.1 q (by simp)
          simp only [lookupEntry]
          rw [if_neg hq]
          exact ihr ⟨fun a ha => h.1 a (by simp [ha]), (List.pairwise_cons.mp h.2).2⟩
      · simp [eraseEntry, lookupEntry, hk]
    · by_cases hk : key = k
      · subst hk
        simp [eraseEntry, lookupEntry, h1, Ne.symm h1]
      · simp [eraseEntry, lookupEntry, h1, hk, ih h.2]

@[simp] theorem get?_insert (a : Attrs) (name key : String) (v : AttrValue) :
    (a.insert name v).get? key = if key = name then some v else a.get? key :=
  lookupEntry_insertEntry name key v a.entries

end Attrs
end HtmlQuery
