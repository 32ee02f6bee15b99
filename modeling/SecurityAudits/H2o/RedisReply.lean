import Mathlib.Data.List.Basic

/-!
# The decoding of redis replies

`decode_redis_reply` (`lib/handler/mruby/redis.c`) turns a reply of hiredis, in which arrays may
contain arrays, into a value of mruby. It calls itself for each element, and gives up with a
`ProtocolError` at an array that is inside too many others; the loop over the elements of an array
passes such an error on as its own result.

A call has a frame of the stack, and the stack has room for some of them: `none` is its overflow. The
cases of the `switch` that are not shown, for replies that are neither strings nor arrays nor
integers, are a parameter.
-/

namespace SecurityAudits.H2o.RedisReply
set_option autoImplicit false

/-! ## The functions -/

/-- `redisReply`; `other` is one of a type whose case is not shown, or of none. -/
inductive Reply (Other : Type) where
  | string (str : List UInt8)
  | array (elements : List (Reply Other))
  | integer (integer : BitVec 64)
  | other (reply : Other)
  deriving Repr

/-- `mrb_value`; `other` is one that the cases not shown make. -/
inductive Value (Object : Type) where
  | str (bytes : List UInt8)
  | ary (elements : List (Value Object))
  | fixnum (n : Int)
  | protocolError (message : String)
  | other (object : Object)
  deriving Repr

/-- What is not shown: the conversion to `mrb_int`, whether a reply is of a known type, its value and
whether a value is a `ProtocolError`. A reply of a known type does not make one. -/
structure Cases (Command Other Object : Type) where
  mrbInt : BitVec 64 → Int
  known : Other → Bool
  decode : Command → Other → Object
  protocolError : Object → Bool
  apart : ∀ command reply, known reply = true → protocolError (decode command reply) = false

variable {Command Other Object : Type} (cases : Cases Command Other Object) (command : Command)

/-- `mrb_obj_is_kind_of(mrb, element, get_error_class(mrb, "ProtocolError"))` -/
def isProtocolError : Value Object → Bool
  | .protocolError _ => true
  | .other object => cases.protocolError object
  | _ => false

/-- `H2O_MRUBY_REDIS_MAX_ARRAY_NESTING` -/
def maxArrayNesting : Nat := 128

def nestingTooDeep : Value Object := .protocolError "redis reply array nesting too deep"

/-- The loop over the elements, with the array decoded so far. -/
def decodeElements (decodeElement : Reply Other → Option (Value Object)) :
    List (Value Object) → List (Reply Other) → Option (Value Object)
  | decoded, [] => some (.ary decoded)
  | decoded, reply :: rest => (decodeElement reply).bind fun element =>
    if isProtocolError cases element then some element
    else decodeElements decodeElement (decoded ++ [element]) rest

/-- `decode_redis_reply`, on a stack with room for `frames` calls. -/
def decodeRedisReply : (frames nesting : Nat) → Reply Other → Option (Value Object)
  | 0, _, _ => none
  | _ + 1, _, .string str => some (.str str)
  | frames + 1, nesting, .array elements =>
    if nesting ≥ maxArrayNesting then some nestingTooDeep
    else decodeElements cases (decodeRedisReply frames (nesting + 1)) [] elements
  | _ + 1, _, .integer integer => some (.fixnum (cases.mrbInt integer))
  | _ + 1, _, .other reply => some (.other (cases.decode command reply))

mutual

/-- The function replaced, on a stack without end. -/
def decodeUnbounded : Reply Other → Value Object
  | .string str => .str str
  | .array elements => decodeUnboundedElements [] elements
  | .integer integer => .fixnum (cases.mrbInt integer)
  | .other reply => .other (cases.decode command reply)

def decodeUnboundedElements : List (Value Object) → List (Reply Other) → Value Object
  | decoded, [] => .ary decoded
  | decoded, reply :: rest => decodeUnboundedElements (decoded ++ [decodeUnbounded reply]) rest

end

/-! ## Reply trees -/

mutual

/-- How deep arrays are nested in a reply. -/
def depth : Reply Other → Nat
  | .array elements => depthElements elements + 1
  | _ => 0

def depthElements : List (Reply Other) → Nat
  | [] => 0
  | reply :: rest => max (depth reply) (depthElements rest)

end

/-- All the replies of the tree are of known types. -/
inductive Known : Reply Other → Prop
  | string (str : List UInt8) : Known (.string str)
  | array (elements : List (Reply Other)) (known : ∀ reply ∈ elements, Known reply) :
    Known (.array elements)
  | integer (integer : BitVec 64) : Known (.integer integer)
  | other (reply : Other) (known : cases.known reply = true) : Known (.other reply)

theorem depthElements_le_iff {elements : List (Reply Other)} {n : Nat} :
    depthElements elements ≤ n ↔ ∀ reply ∈ elements, depth reply ≤ n := by
  induction elements with
  | nil => simp [depthElements]
  | cons reply rest ih => rw [depthElements, Nat.max_le, List.forall_mem_cons, ih]

/-! ## The old function -/

variable {cases command} {reply : Reply Other} {elements : List (Reply Other)}

theorem decodeUnboundedElements_eq (decoded : List (Value Object)) :
    decodeUnboundedElements cases command decoded elements =
      .ary (decoded ++ elements.map (decodeUnbounded cases command)) := by
  induction elements generalizing decoded with
  | nil => rw [decodeUnboundedElements, List.map_nil, List.append_nil]
  | cons reply rest ih =>
    rw [decodeUnboundedElements, ih, List.append_assoc, List.singleton_append, List.map_cons]

/-- The loop of the new function would not stop at what the old one makes. -/
theorem decodeUnbounded_apart (known : Known cases reply) :
    isProtocolError cases (decodeUnbounded cases command reply) = false := by
  cases known with
  | string str => rfl
  | array elements known =>
    rw [decodeUnbounded, decodeUnboundedElements_eq]
    rfl
  | integer integer => rfl
  | other reply known => exact cases.apart command reply known

/-! ## The new function -/

/-- The loop, when each element that `fits` is decoded as before and every other one is an error. -/
theorem decodeElements_eq {decodeElement : Reply Other → Option (Value Object)}
    (fits : Reply Other → Prop) [DecidablePred fits] (known : ∀ reply ∈ elements, Known cases reply)
    (called : ∀ reply ∈ elements, decodeElement reply =
      some (if fits reply then decodeUnbounded cases command reply else nestingTooDeep))
    (decoded : List (Value Object)) :
    decodeElements cases decodeElement decoded elements =
      some (if ∀ reply ∈ elements, fits reply then
        decodeUnboundedElements cases command decoded elements else nestingTooDeep) := by
  induction elements generalizing decoded with
  | nil =>
    rw [if_pos (List.forall_mem_nil fits)]
    rfl
  | cons reply rest ih =>
    obtain ⟨knownHead, knownRest⟩ := List.forall_mem_cons.1 known
    obtain ⟨calledHead, calledRest⟩ := List.forall_mem_cons.1 called
    rw [decodeElements, calledHead, Option.bind_some]
    by_cases head : fits reply
    · rw [if_pos head, decodeUnbounded_apart knownHead, if_neg Bool.false_ne_true,
        ih knownRest calledRest, decodeUnboundedElements]
      simp only [List.forall_mem_cons, head, true_and]
    · have refused : ¬ ∀ reply' ∈ reply :: rest, fits reply' :=
        fun all => head (all reply (List.mem_cons_self ..))
      rw [if_neg head, if_neg refused]
      rfl

/-- A call at any nesting: it looks as deep as is left, and so do its frames reach. -/
theorem decodeRedisReply_eq {frames nesting : Nat} (known : Known cases reply)
    (reached : nesting ≤ maxArrayNesting) (room : maxArrayNesting < nesting + frames) :
    decodeRedisReply cases command frames nesting reply =
      some (if nesting + depth reply ≤ maxArrayNesting then decodeUnbounded cases command reply
        else nestingTooDeep) := by
  induction frames generalizing nesting reply with
  | zero => exact absurd room (by omega)
  | succ frames ih =>
    cases known with
    | string str => exact congrArg some (if_pos reached).symm
    | integer integer => exact congrArg some (if_pos reached).symm
    | other reply known => exact congrArg some (if_pos reached).symm
    | array elements known =>
      rw [decodeRedisReply, depth, decodeUnbounded]
      by_cases full : nesting ≥ maxArrayNesting
      · rw [if_pos full, if_neg (by omega)]
      · have called : ∀ reply ∈ elements,
            decodeRedisReply cases command frames (nesting + 1) reply =
              some (if nesting + 1 + depth reply ≤ maxArrayNesting then
                decodeUnbounded cases command reply else nestingTooDeep) :=
          fun reply mem => ih (known reply mem) (by omega) (by omega)
        have fits : (∀ reply ∈ elements, nesting + 1 + depth reply ≤ maxArrayNesting) ↔
            nesting + (depthElements elements + 1) ≤ maxArrayNesting := by
          have bound := @depthElements_le_iff _ elements (maxArrayNesting - (nesting + 1))
          constructor
          · intro all
            have := bound.2 fun reply mem => by have := all reply mem; omega
            omega
          · intro all reply mem
            have := bound.1 (by omega) reply mem
            omega
        rw [if_neg full, decodeElements_eq _ known called []]
        simp only [fits]

/-- **The limit changes nothing below it, and is the whole result above it.** A tree of known
replies, of any shape, in which arrays are nested at most `H2O_MRUBY_REDIS_MAX_ARRAY_NESTING` deep is
decoded as by the function replaced; every other one is a `ProtocolError`, from whichever depth and
place. The stack needs room for one call more than the limit, whatever the tree. -/
theorem decodeRedisReply_limited (cases : Cases Command Other Object) (command : Command)
    (reply : Reply Other) (known : Known cases reply) {frames : Nat}
    (room : maxArrayNesting + 1 ≤ frames) :
    decodeRedisReply cases command frames 0 reply =
      some (if depth reply ≤ maxArrayNesting then decodeUnbounded cases command reply
        else .protocolError "redis reply array nesting too deep") := by
  have decoded := @decodeRedisReply_eq _ _ _ cases command reply frames 0 known (Nat.zero_le _)
    (by omega)
  rw [Nat.zero_add] at decoded
  exact decoded

/-- The only other type is that of `nil`. -/
def nilOnly : Cases Unit Unit Unit where
  mrbInt := BitVec.toInt
  known := fun _ => true
  decode := fun _ _ => ()
  protocolError := fun _ => false
  apart := fun _ _ _ => rfl

/-- A reply inside `n` arrays, each with a `nil` behind what it contains. -/
def wrapped : Nat → Reply Unit
  | 0 => .integer 7
  | n + 1 => .array [wrapped n, .other ()]

theorem known_wrapped (n : Nat) : Known nilOnly (wrapped n) := by
  induction n with
  | zero => exact .integer 7
  | succ n ih =>
    exact .array _ (List.forall_mem_cons.2 ⟨ih, List.forall_mem_singleton.2 (.other () rfl)⟩)

theorem depth_wrapped (n : Nat) : depth (wrapped n) = n := by
  induction n with
  | zero => rfl
  | succ n ih =>
    rw [wrapped, depth, depthElements, ih]
    exact congrArg (· + 1) (Nat.max_eq_left (Nat.zero_le n))

/-- At the limit and one above it. -/
theorem decodeRedisReply_limited_wrapped :
    decodeRedisReply nilOnly () 129 0 (wrapped 128) =
        some (decodeUnbounded nilOnly () (wrapped 128)) ∧
      decodeRedisReply nilOnly () 129 0 (wrapped 129) =
        some (.protocolError "redis reply array nesting too deep") := by
  constructor
  · have decoded := decodeRedisReply_limited nilOnly () (wrapped 128) (known_wrapped 128)
      (Nat.le_refl 129)
    rwa [if_pos (by rw [depth_wrapped]; decide)] at decoded
  · have decoded := decodeRedisReply_limited nilOnly () (wrapped 129) (known_wrapped 129)
      (Nat.le_refl 129)
    rwa [if_neg (by rw [depth_wrapped]; decide)] at decoded

end SecurityAudits.H2o.RedisReply
