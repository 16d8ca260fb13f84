set_option autoImplicit false

/-!
# Characters that leave no mark

Joiners, selectors, fillers and the like: where a font does not know such a character,
nothing is shown for it.  Some of them are letters, so that neither being a letter nor
being assigned makes a character show.  The table lists the ranges of Unicode 17.0 with
the property `Default_Ignorable_Code_Point`.
-/

namespace HostSheet.Text

/-- The first and last code point of every run of characters that leave no mark, in
order. -/
def ignorableRanges : List (Nat × Nat) :=
  [(0xAD, 0xAD), (0x34F, 0x34F), (0x61C, 0x61C), (0x115F, 0x1160), (0x17B4, 0x17B5),
   (0x180B, 0x180F), (0x200B, 0x200F), (0x202A, 0x202E), (0x2060, 0x206F), (0x3164, 0x3164),
   (0xFE00, 0xFE0F), (0xFEFF, 0xFEFF), (0xFFA0, 0xFFA0), (0xFFF0, 0xFFF8),
   (0x1BCA0, 0x1BCA3), (0x1D173, 0x1D17A), (0xE0000, 0xE0FFF)]

/-- Whether a character leaves no mark. -/
def isIgnorable (c : Char) : Bool :=
  ignorableRanges.any fun r => r.1 ≤ c.toNat && c.toNat ≤ r.2

end HostSheet.Text
