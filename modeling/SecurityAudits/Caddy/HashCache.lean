import Mathlib.Data.List.Infix
import SecurityAudits.Lib.Memo

/-!
# The cache of password comparisons

`correctPassword` (`modules/caddyhttp/caddyauth/basicauth.go`) keeps the result of comparing a
password with the hash of an account under the SHA-256 digest of both, one behind the other. Nothing
says where the hash ends, so bytes at the end of a hash can be bytes at the beginning of a password
as well. Two pairs between which no bytes can be moved like this are `Separate`, and that is what it
takes for their keys to differ (`cacheKey_unique_iff`).

The digest is a parameter. SHA-256 is assumed to have no collision among the inputs at hand.
-/

namespace SecurityAudits.Caddy.HashCache
set_option autoImplicit false

variable {Digest : Type}

/-- What `correctPassword` compares: `account.password`, which is a hash, and
`plaintextPassword`. -/
@[ext]
structure Credentials where
  password : List UInt8
  plaintextPassword : List UInt8
  deriving DecidableEq

/-- `append(account.password, plaintextPassword...)` -/
def preimage (c : Credentials) : List UInt8 := c.password ++ c.plaintextPassword

def cacheKey (sha256 : List UInt8 → Digest) (c : Credentials) : Digest := sha256 (preimage c)

/-- `correctPassword` with the cache: the result that is cached, or that of `compare`. -/
def correctPassword [DecidableEq Digest] (sha256 : List UInt8 → Digest)
    (compare : Credentials → Bool) (cache : Memo.Cache Digest Bool) (c : Credentials) :
    Bool × Memo.Cache Digest Bool :=
  Memo.lookup (cacheKey sha256) compare cache c

/-- The results of calls one after the other. -/
def results [DecidableEq Digest] (sha256 : List UInt8 → Digest) (compare : Credentials → Bool) :
    Memo.Cache Digest Bool → List Credentials → List Bool
  | _, [] => []
  | cache, c :: requests =>
    (correctPassword sha256 compare cache c).1 ::
      results sha256 compare (correctPassword sha256 compare cache c).2 requests

/-- Some bytes end the hash of `b` and begin the password of `a`, and `a` and `b` are the same
otherwise. -/
def Shifted (a b : Credentials) : Prop :=
  ∃ moved, moved ≠ [] ∧ b.password = a.password ++ moved ∧
    a.plaintextPassword = moved ++ b.plaintextPassword

/-- No bytes can be moved between the hash and the password to make one of the other. -/
def Separate (a b : Credentials) : Prop := ¬ Shifted a b ∧ ¬ Shifted b a

/-- The two inputs of the digest do not collide. -/
def NoCollision (sha256 : List UInt8 → Digest) (a b : Credentials) : Prop :=
  sha256 (preimage a) = sha256 (preimage b) → preimage a = preimage b

variable {sha256 : List UInt8 → Digest} {a b : Credentials}

theorem Shifted.preimage_eq (shifted : Shifted a b) : preimage a = preimage b := by
  obtain ⟨moved, -, password, plaintext⟩ := shifted
  rw [preimage, preimage, password, plaintext, List.append_assoc]

theorem Shifted.ne (shifted : Shifted a b) : a ≠ b := by
  rintro rfl
  obtain ⟨moved, some', password, -⟩ := shifted
  exact some' (List.self_eq_append_right.1 password)

/-- One input of the digest comes from one pair only, but for moved bytes. -/
theorem preimage_cases (same : preimage a = preimage b) : a = b ∨ Shifted a b ∨ Shifted b a := by
  obtain ⟨pa, qa⟩ := a
  obtain ⟨pb, qb⟩ := b
  rcases List.append_eq_append_iff.1 same with ⟨moved, password, plaintext⟩ |
    ⟨moved, password, plaintext⟩
  · cases moved with
    | nil =>
      rw [List.append_nil] at password
      exact .inl (Credentials.ext password.symm plaintext)
    | cons c moved => exact .inr (.inl ⟨c :: moved, List.cons_ne_nil _ _, password, plaintext⟩)
  · cases moved with
    | nil =>
      rw [List.append_nil] at password
      exact .inl (Credentials.ext password plaintext.symm)
    | cons c moved => exact .inr (.inr ⟨c :: moved, List.cons_ne_nil _ _, password, plaintext⟩)

theorem cacheKey_eq_iff (apart : NoCollision sha256 a b) :
    (cacheKey sha256 a = cacheKey sha256 b → a = b) ↔ Separate a b := by
  constructor
  · intro unique
    have own : preimage a = preimage b → a = b := fun same => unique (congrArg sha256 same)
    exact ⟨fun shifted => shifted.ne (own shifted.preimage_eq),
      fun shifted => shifted.ne (own shifted.preimage_eq.symm).symm⟩
  · rintro ⟨forth, back⟩ same
    rcases preimage_cases (apart same) with equal | shifted | shifted
    · exact equal
    · exact absurd shifted forth
    · exact absurd shifted back

theorem results_eq [DecidableEq Digest] (compare : Credentials → Bool)
    (cache : Memo.Cache Digest Bool) (requests : List Credentials) :
    results sha256 compare cache requests =
      Memo.answers (cacheKey sha256) compare cache requests := by
  induction requests generalizing cache with
  | nil => rfl
  | cons c requests ih => rw [results, Memo.answers, ih, correctPassword]

/-- **When the cache key is unique.** Without a collision of SHA-256 among the requests: two of them
that have the same key are the same exactly when they are separate. All results are those of the
comparisons, whatever the comparison says, exactly when the requests are pairwise separate. -/
theorem cacheKey_unique_iff [DecidableEq Digest] {requests : List Credentials}
    (collisionFree : ∀ a ∈ requests, ∀ b ∈ requests, NoCollision sha256 a b) :
    (∀ a ∈ requests, ∀ b ∈ requests,
      (cacheKey sha256 a = cacheKey sha256 b → a = b) ↔ Separate a b) ∧
      ((∀ compare, results sha256 compare Memo.empty requests = requests.map compare) ↔
        ∀ a ∈ requests, ∀ b ∈ requests, Separate a b) := by
  have unique : ∀ a ∈ requests, ∀ b ∈ requests,
      (cacheKey sha256 a = cacheKey sha256 b → a = b) ↔ Separate a b :=
    fun a mem b mem' => cacheKey_eq_iff (collisionFree a mem b mem')
  refine ⟨unique, ?_⟩
  simp only [results_eq]
  rw [Memo.answers_iff]
  exact ⟨fun apart a mem b mem' => (unique a mem b mem').1 (apart a mem b mem'),
    fun separate a mem b mem' => (unique a mem b mem').2 (separate a mem b mem')⟩

/-- SHA-256 on `"abc"` and on the empty input; other inputs do not matter. -/
def sha256Vectors (message : List UInt8) : List UInt8 :=
  if message = [0x61, 0x62, 0x63] then
    [0xba, 0x78, 0x16, 0xbf, 0x8f, 0x01, 0xcf, 0xea, 0x41, 0x41, 0x40, 0xde, 0x5d, 0xae, 0x22, 0x23,
      0xb0, 0x03, 0x61, 0xa3, 0x96, 0x17, 0x7a, 0x9c, 0xb4, 0x10, 0xff, 0x61, 0xf2, 0x00, 0x15, 0xad]
  else
    [0xe3, 0xb0, 0xc4, 0x42, 0x98, 0xfc, 0x1c, 0x14, 0x9a, 0xfb, 0xf4, 0xc8, 0x99, 0x6f, 0xb9, 0x24,
      0x27, 0xae, 0x41, 0xe4, 0x64, 0x9b, 0x93, 0x4c, 0xa4, 0x95, 0x99, 0x1b, 0x78, 0x52, 0xb8, 0x55]

theorem cacheKey_unique_vectors :
    (∀ compare, results sha256Vectors compare Memo.empty
        [⟨[0x61, 0x62], [0x63]⟩, ⟨[], []⟩] = [compare ⟨[0x61, 0x62], [0x63]⟩, compare ⟨[], []⟩]) ↔
      ∀ a ∈ [(⟨[0x61, 0x62], [0x63]⟩ : Credentials), ⟨[], []⟩],
        ∀ b ∈ [(⟨[0x61, 0x62], [0x63]⟩ : Credentials), ⟨[], []⟩], Separate a b :=
  (cacheKey_unique_iff (by unfold NoCollision; decide)).2

/-- `"a"` with `"bc"` and `"ab"` with `"c"` have one key. -/
theorem cacheKey_shared :
    ¬ (cacheKey sha256Vectors ⟨[0x61], [0x62, 0x63]⟩ =
        cacheKey sha256Vectors ⟨[0x61, 0x62], [0x63]⟩ →
      (⟨[0x61], [0x62, 0x63]⟩ : Credentials) = ⟨[0x61, 0x62], [0x63]⟩) :=
  fun unique => absurd (unique rfl) (by decide)

end SecurityAudits.Caddy.HashCache
