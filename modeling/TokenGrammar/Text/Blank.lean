/-!
# Blanks and words

A text is read as a list of characters. This module knows which characters are blank, cuts a text
into its words and removes the blanks around a text.

## Main definitions

* `isBlank`: membership in the Unicode property White_Space.
* `words`: the maximal blank-free stretches of a text, in order.
* `cut`: a text divided at the first occurrence of a separator.
-/
namespace TokenGrammar.Text

/-- The characters with the Unicode property White_Space, 25 in number. -/
def isBlank (c : Char) : Bool :=
  let n := c.toNat
  (0x09 ≤ n && n ≤ 0x0d) || n == 0x20 || n == 0x85 || n == 0xa0 || n == 0x1680 ||
    (0x2000 ≤ n && n ≤ 0x200a) || n == 0x2028 || n == 0x2029 || n == 0x202f || n == 0x205f ||
    n == 0x3000

/-- A character in front of the words of the text `rest`: it joins the first word if that word
starts at once, and is a word of its own otherwise. -/
def joinWord (c : Char) (rest : List Char) (ws : List (List Char)) : List (List Char) :=
  match rest, ws with
  | d :: _, w :: ws => if isBlank d then [c] :: w :: ws else (c :: w) :: ws
  | _, ws => [c] :: ws

/-- The words of a text: its maximal stretches without a blank, in order. -/
def words : List Char → List (List Char)
  | [] => []
  | c :: cs => if isBlank c then words cs else joinWord c cs (words cs)

@[simp] theorem words_nil : words [] = [] := rfl

theorem words_cons (c : Char) (cs : List Char) :
    words (c :: cs) = if isBlank c then words cs else joinWord c cs (words cs) := rfl

/-- The text before the first `sep`, and the text after it if there is one. -/
def cut (sep : Char) : List Char → List Char × Option (List Char)
  | [] => ([], none)
  | c :: cs =>
    if c = sep then ([], some cs)
    else
      let (before, after) := cut sep cs
      (c :: before, after)

@[simp] theorem cut_nil (sep : Char) : cut sep [] = ([], none) := rfl

@[simp] theorem cut_cons_self (sep : Char) (cs : List Char) : cut sep (sep :: cs) = ([], some cs) := by
  simp [cut]

theorem cut_cons_of_ne {sep c : Char} (h : c ≠ sep) (cs : List Char) :
    cut sep (c :: cs) = (c :: (cut sep cs).1, (cut sep cs).2) := by
  simp [cut, h]

/-- The pieces between the occurrences of `sep`; a text without one is its own only piece. -/
def splitOn (sep : Char) : List Char → List (List Char)
  | [] => [[]]
  | c :: cs =>
    if c = sep then [] :: splitOn sep cs
    else
      match splitOn sep cs with
      | [] => [[c]]
      | piece :: rest => (c :: piece) :: rest

/-- A text without the blanks at its two ends. -/
def trim (cs : List Char) : List Char :=
  ((cs.dropWhile isBlank).reverse.dropWhile isBlank).reverse

theorem dropWhile_isBlank_eq_self {cs : List Char} (h : ∀ c ∈ cs.head?, isBlank c = false) :
    cs.dropWhile isBlank = cs := by
  cases cs with
  | nil => rfl
  | cons c cs =>
    have hc : isBlank c = false := h c rfl
    exact List.dropWhile_cons_of_neg (by rw [hc]; exact Bool.false_ne_true)

/-- A text whose two ends are no blanks stays as it is. -/
theorem trim_eq_self {cs : List Char} (hfirst : ∀ c ∈ cs.head?, isBlank c = false)
    (hlast : ∀ c ∈ cs.getLast?, isBlank c = false) : trim cs = cs := by
  have hreverse : ∀ c ∈ cs.reverse.head?, isBlank c = false := by
    rw [List.head?_reverse]
    exact hlast
  rw [trim, dropWhile_isBlank_eq_self hfirst, dropWhile_isBlank_eq_self hreverse,
    List.reverse_reverse]

end TokenGrammar.Text
