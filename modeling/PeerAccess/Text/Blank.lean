/-!
# Blanks

What may surround a value in configuration text: the white space of Unicode. `trim` takes it off
both ends, and leaves a text without blanks alone (`trim_eq_self`).
-/

namespace PeerAccess.Text

/-- The Unicode property `White_Space`. -/
def isBlank (c : Char) : Bool :=
  let n := c.toNat
  (0x09 ≤ n && n ≤ 0x0D) || n == 0x20 || n == 0x85 || n == 0xA0 || n == 0x1680 ||
    (0x2000 ≤ n && n ≤ 0x200A) || n == 0x2028 || n == 0x2029 || n == 0x202F || n == 0x205F ||
    n == 0x3000

def trimLeft (cs : List Char) : List Char := cs.dropWhile isBlank

def trim (cs : List Char) : List Char := (trimLeft (trimLeft cs).reverse).reverse

/-- The text without the blanks around it. -/
def trimmed (s : String) : String := String.ofList (trim s.toList)

/-- Lower case for the 26 letters of ASCII; every other character stays. -/
def lowered (s : String) : String := String.ofList (s.toList.map Char.toLower)

@[simp] theorem toList_trimmed (s : String) : (trimmed s).toList = trim s.toList := by
  simp [trimmed]

@[simp] theorem toList_lowered (s : String) : (lowered s).toList = s.toList.map Char.toLower := by
  simp [lowered]

theorem trimLeft_eq_self {cs : List Char} (h : ∀ c ∈ cs, isBlank c = false) : trimLeft cs = cs := by
  cases cs with
  | nil => rfl
  | cons c r => simp [trimLeft, h c (by simp)]

theorem trim_eq_self {cs : List Char} (h : ∀ c ∈ cs, isBlank c = false) : trim cs = cs := by
  rw [trim, trimLeft_eq_self h, trimLeft_eq_self (by simpa using h), List.reverse_reverse]

end PeerAccess.Text
