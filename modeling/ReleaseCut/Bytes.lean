/-!
# Bytes

Contents of files, names and messages that need not be texts are sequences of bytes. Two of them are
equal if they hold the same bytes in the same order.
-/

namespace ReleaseCut

instance decidableEqBytes : DecidableEq ByteArray := fun a b =>
  decidable_of_iff (a.data = b.data) ⟨fun h => ByteArray.ext h, fun h => h ▸ rfl⟩

end ReleaseCut
