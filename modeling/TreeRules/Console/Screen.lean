import TreeRules.Text.Tabs

/-! # The screen

What is seen of a text that is printed: characters that ring or move the cursor are left out, and
spaces stand in place of tabs.
-/
namespace TreeRules.Screen

/-- The characters that are not seen: bell, backspace, vertical tab, form feed and carriage
return. -/
def isUnseen (c : Char) : Bool := [7, 8, 11, 12, 13].contains c.toNat

/-- A text without the characters that are not seen. -/
def seen (text : List Char) : List Char := text.filter (!isUnseen ·)

/-- The distance between the tab stops of the screen. -/
def tabWidth : Int := 8

def shown (text : List Char) : List Char := Tabs.expand tabWidth (seen text)

end TreeRules.Screen
