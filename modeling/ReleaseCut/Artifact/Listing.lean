import ReleaseCut.FileTree.Disk

/-!
# Listings of a directory

What a directory holds, for the message that nothing in it can be published.

* `Listing.text` has a line for every entry: the size of a file or a hyphen, and the name, with a
  slash behind the name of anything but a file.
-/

namespace ReleaseCut

/-- What is known of a directory. -/
inductive Listing where
  /-- The directory cannot be read. -/
  | unreadable (cause : IoError)
  /-- The directory holds these entries. -/
  | entries (es : List (String × Entry))
  deriving DecidableEq

namespace Listing

/-- The width of the column of sizes. -/
def sizeWidth : Nat := 10

/-- A text at the right end of the column of sizes. -/
def column (s : String) : String :=
  String.ofList (List.replicate (sizeWidth - s.length) ' ') ++ s

/-- The line of an entry. -/
def line : String × Entry → String
  | (name, .file content) => "  " ++ column (toString content.size) ++ "  " ++ name
  | (name, _) => "  " ++ column "-" ++ "  " ++ name ++ "/"

/-- The text of a listing. -/
def text : Listing → String
  | .unreadable cause => "(cannot read directory: " ++ cause.message ++ ")"
  | .entries [] => "(directory is empty)"
  | .entries es => "\n".intercalate (es.map line)

end Listing

end ReleaseCut
