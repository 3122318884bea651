/-!
# Characters of ASCII

What holds of all characters in ASCII is decided by going over them.
-/

namespace ContainerPreview.Text

/-- What holds of the first 128 characters holds of every character in ASCII. -/
theorem forall_ascii (P : Char → Prop) (each : ∀ code < 128, P (Char.ofNat code)) {c : Char}
    (ascii : c.toNat < 128) : P c := by
  rw [← Char.ofNat_toNat c]
  exact each c.toNat ascii

end ContainerPreview.Text
