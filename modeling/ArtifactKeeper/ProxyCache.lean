import ArtifactKeeper.Library.Parts
import ArtifactKeeper.Library.UnixPath

/-!
# Keys of the proxy cache

`CacheKeys::derive` names the two objects of a cache entry below the root of its repository.
-/

namespace ArtifactKeeper.ProxyCache

open Text UnixPath List

def proxyCacheNamespace : Text := "proxy-cache/"

def maxStorageKeyBytes : ℕ := 1024

/-- A deployment's own part of the keys, or the layout without one. -/
structure ProxyCacheScope where
  segment : Option Text
  proper : ∀ s ∈ segment, Proper s

def ProxyCacheScope.unscoped : ProxyCacheScope := ⟨none, nofun⟩

/-- The two objects of an entry. -/
inductive Kind
  | content
  | metadata
  deriving DecidableEq

def Kind.leaf : Kind → Text
  | .content => "__content__"
  | .metadata => "__cache_meta__.json"

structure CacheKeys where
  (content metadata : Text)

def CacheKeys.key (keys : CacheKeys) : Kind → Text
  | .content => keys.content
  | .metadata => keys.metadata

def normalizeCachePath (path : Text) : Text := (path.dropWhile (· = '/')).rdropWhile (· = '/')

def isDotSegment (segment : Text) : Bool :=
  toAsciiLowercase segment ∈ ([".", "%2e", "..", ".%2e", "%2e.", "%2e%2e"] : List Text)

def segmentError (segment : Text) : Option Text :=
  if isDotSegment segment then
    some ("Proxy cache path must not contain `" ++ segment ++ "` segment")
  else if segment.isEmpty then some "Proxy cache path must not contain empty segments"
  else none

def validateCachePath (path : Text) : Except Text Text :=
  let trimmed := normalizeCachePath path
  if trimmed.isEmpty then .error "Proxy cache path must not be empty"
  else if '\x00' ∈ trimmed then .error "Proxy cache path must not contain NUL bytes"
  else if '\\' ∈ trimmed then .error "Proxy cache path must not contain backslashes"
  else
    match (trimmed.splitOn '/').findSome? segmentError with
    | some error => .error error
    | none =>
      if trimmed.any fun c => c.toNat < 0x20 && c ≠ '\t' then
        .error "Proxy cache path must not contain control characters"
      else .ok trimmed

namespace ProxyCacheScope

variable (scope : ProxyCacheScope) (repoKey : Text)

def root : Text :=
  proxyCacheNamespace ++ scope.segment.elim [] (· ++ ['/'])

def repoRoot : Text := scope.root ++ repoKey ++ ['/']

def checkCacheKeyLength (trimmed : Text) : Except Text Unit :=
  let worst := byteLength scope.root + byteLength repoKey + 1 + byteLength trimmed + 1 +
    byteLength "__cache_meta__.json"
  if worst > maxStorageKeyBytes then
    .error ("Proxy cache key exceeds " ++ decimal maxStorageKeyBytes ++
      "-byte object-store limit (would be " ++ decimal worst ++ " bytes)")
  else .ok ()

end ProxyCacheScope

variable (scope : ProxyCacheScope)

def derive (repoKey path : Text) : Except Text CacheKeys :=
  match validateCachePath path with
  | .error error => .error error
  | .ok trimmed =>
    let repoRoot := scope.repoRoot repoKey
    match scope.checkCacheKeyLength repoKey trimmed with
    | .error error => .error error
    | .ok () => .ok ⟨repoRoot ++ trimmed ++ "/__content__",
        repoRoot ++ trimmed ++ "/__cache_meta__.json"⟩

variable {scope} {repo repo' path path' : Text} {keys keys' : CacheKeys}

theorem validate_eq_ok {trimmed : Text} (valid : validateCachePath path = .ok trimmed) :
    trimmed = normalizeCachePath path := by
  unfold validateCachePath at valid
  extract_lets normal at valid
  split_ifs at valid
  all_goals
    split at valid
    · cases valid
  · cases valid
  · exact (Except.ok.inj valid).symm

/-- What a derived key is made of. -/
theorem derive_eq_ok (derived : derive scope repo path = .ok keys) (kind : Kind) :
    keys.key kind =
      scope.root ++ (repo ++ '/' :: (normalizeCachePath path ++ '/' :: kind.leaf)) := by
  unfold derive at derived
  extract_lets repoRoot at derived
  split at derived
  · cases derived
  next trimmed valid =>
  obtain rfl := validate_eq_ok valid
  cases fits : scope.checkCacheKeyLength repo (normalizeCachePath path) with
  | error error =>
    rw [fits] at derived
    cases derived
  | ok =>
    rw [fits] at derived
    obtain rfl := Except.ok.inj derived
    cases kind
    all_goals
      simp only [CacheKeys.key, repoRoot, ProxyCacheScope.repoRoot, append_assoc]
      rfl

theorem splitOn_leaf (front : Text) (kind : Kind) :
    (front ++ '/' :: kind.leaf).splitOn '/' = front.splitOn '/' ++ [kind.leaf] := by
  have free : '/' ∉ kind.leaf := by cases kind <;> decide
  rw [splitOn_append_cons, splitOn_of_not_mem free]

def segments (repo path : Text) : List Text := (repo ++ '/' :: normalizeCachePath path).splitOn '/'

/-- Entries can stand side by side in one directory tree just if the repository and the path of the
second do not begin with those of the first and the name of a leaf. -/
theorem cache_keys_coexist (derived : derive scope repo path = .ok keys)
    (derived' : derive scope repo' path' = .ok keys') :
    (∀ kind kind', ¬keys.key kind ++ ['/'] <+: keys'.key kind') ↔
      ∀ kind : Kind, ¬segments repo path ++ [kind.leaf] <+: segments repo' path' := by
  have beginning (kind kind' : Kind) : keys.key kind ++ ['/'] <+: keys'.key kind' ↔
      segments repo path ++ [kind.leaf] <+: segments repo' path' := by
    have leaf (repo path : Text) (kind : Kind) :
        repo ++ '/' :: (normalizeCachePath path ++ '/' :: kind.leaf) =
          (repo ++ '/' :: normalizeCachePath path) ++ '/' :: kind.leaf := by simp
    rw [derive_eq_ok derived, derive_eq_ok derived', append_assoc, prefix_append_right_inj, leaf, leaf,
      append_sep_prefix_iff, splitOn_leaf, splitOn_leaf, dropLast_concat]
    rfl
  simp only [beginning]
  exact ⟨fun apart kind => apart kind .content, fun apart kind _ => apart kind⟩

theorem cache_keys_coexist_nested : ∃ keys keys',
    derive .unscoped "npm" "/is-odd" = .ok keys ∧
      derive .unscoped "npm" "is-odd/-/is-odd-3.0.1.tgz" = .ok keys' ∧
      ¬keys.content ++ ['/'] <+: keys'.content :=
  ⟨_, _, rfl, rfl, (@cache_keys_coexist .unscoped "npm" "npm" "/is-odd" "is-odd/-/is-odd-3.0.1.tgz" _ _
    rfl rfl).2 (by rintro (_ | _) <;> decide) .content .content⟩

theorem leaf_in_path_collides : ∃ keys keys', derive .unscoped "r" "a" = .ok keys ∧
    derive .unscoped "r" "a/__content__/b" = .ok keys' ∧ keys.content ++ ['/'] <+: keys'.content :=
  ⟨_, _, rfl, rfl, by decide⟩

end ArtifactKeeper.ProxyCache
