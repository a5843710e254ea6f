import ArtifactKeeper.Library.ByteStreams
import ArtifactKeeper.Library.Text

/-!
# Where a repository stores its objects

A repository names a backend and a path.  Only the filesystem backend roots a tree at the path;
every other backend is one shared store, so repositories on it resolve equal keys to the same
object.
-/

namespace ArtifactKeeper

abbrev Repo := ℕ

/-- The `storage_backend` and `storage_path` columns of a repository. -/
structure StorageLocation where
  backend : String
  path : String
  deriving DecidableEq

namespace StorageLocation

/-- The condition of the garbage collector's queries for two repositories to share objects. -/
def sharesWith (a b : StorageLocation) : Bool :=
  b.backend = a.backend && (a.backend ≠ "filesystem" || b.path = a.path)

def root (a : StorageLocation) : StorageLocation :=
  if a.backend = "filesystem" then a else { a with path := "" }

/-- The queries compare exactly the object stores. -/
theorem sharesWith_iff (a b : StorageLocation) : a.sharesWith b ↔ b.root = a.root := by
  obtain ⟨backend, _⟩ := a
  obtain ⟨backend', _⟩ := b
  by_cases fs : backend = "filesystem" <;> by_cases fs' : backend' = "filesystem" <;>
    simp_all [sharesWith, root]
  exact fun same => absurd same.symm fs

end StorageLocation

/-! ### Bodies of stored objects -/

abbrev Bytes := List UInt8

inductive AppError
  | storage (message : Text)
  | notFound (message : Text)
  | internal (message : Text)
  | serviceUnavailable (message : Text)
  deriving DecidableEq

def AppError.display : AppError → Text
  | .storage message => "Storage error: " ++ message
  | .notFound message => "Resource not found: " ++ message
  | .internal message => "Internal error: " ++ message
  | .serviceUnavailable message => "Service unavailable: " ++ message

abbrev Body := ByteStreams.ByteStream AppError UInt8

/-- What a streamed upload reports; `δ` is the type of digests. -/
structure PutStreamResult (δ : Type*) where
  checksumSha256 : δ
  bytesWritten : ℕ
  deriving DecidableEq

end ArtifactKeeper
