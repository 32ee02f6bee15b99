import SecurityAudits.Lib.Framing

/-!
# The HelloRetryRequest hash of the ClientHello extensions

After a HelloRetryRequest the server compares a hash of the second ClientHello with that of the
first. Of every extension that it knows it hashes the type, the length and the contents; three
may come and go and are left out, and of two only the type is hashed, since their contents may
change. The patch added the length: without it, bytes could be shifted between extensions.

`encoding` is what is fed to the hash for an extension. It is a framing whose view is what must
not change (`encoding_reads`), so the stream determines that of all extensions.
-/

namespace SecurityAudits.Libressl.ClientHelloHash
set_option autoImplicit false
open SecurityAudits.Framing

def tlsextTypePadding : UInt16 := 21
def tlsextTypePreSharedKey : UInt16 := 41
def tlsextTypeEarlyData : UInt16 := 42
def tlsextTypeCookie : UInt16 := 44
def tlsextTypeKeyShare : UInt16 := 51

/-- An extension as it is parsed: the wire has two bytes for the length. -/
structure Extension where
  type : UInt16
  cbs : List UInt8
  short : cbs.length < 65536

/-- How the host stores a `uint16_t`. -/
inductive ByteOrder where
  | little
  | big

/-- The two bytes of a `uint16_t` in memory. -/
def ByteOrder.bytes (order : ByteOrder) (n : UInt16) : List UInt8 :=
  let low := UInt8.ofNat (n.toNat % 256)
  let high := UInt8.ofNat (n.toNat / 256)
  match order with
  | .little => [low, high]
  | .big => [high, low]

/-- The hash context: what has been fed to the hash, in how many updates. -/
structure HashCtx where
  stream : List UInt8
  updates : Nat

section Code

variable (order : ByteOrder) (succeeds : Nat → Bool) (known : UInt16 → Bool)

/-- `tls13_clienthello_hash_update_bytes`, which may fail. -/
def hashUpdateBytes (ctx : HashCtx) (data : List UInt8) : Option HashCtx :=
  if succeeds ctx.updates then some ⟨ctx.stream ++ data, ctx.updates + 1⟩ else none

/-- The patched `tlsext_clienthello_hash_extension`; `none` stands for the result 0. -/
def hashExtension (ctx : HashCtx) (type : UInt16) (cbs : List UInt8) : Option HashCtx :=
  let len := UInt16.ofNat cbs.length
  if type = tlsextTypeEarlyData ∨ type = tlsextTypeCookie ∨ type = tlsextTypePadding then some ctx
  else (hashUpdateBytes succeeds ctx (order.bytes type)).bind fun ctx =>
    if type = tlsextTypePreSharedKey ∨ type = tlsextTypeKeyShare then some ctx
    else (hashUpdateBytes succeeds ctx (order.bytes len)).bind fun ctx =>
      hashUpdateBytes succeeds ctx cbs

/-- The loop of `tlsext_parse`, which hashes the extensions of the types it knows. -/
def hashExtensions : HashCtx → List Extension → Option HashCtx
  | ctx, [] => some ctx
  | ctx, e :: extensions =>
    if known e.type then
      (hashExtension order succeeds ctx e.type e.cbs).bind fun ctx => hashExtensions ctx extensions
    else hashExtensions ctx extensions

end Code

/-- The extensions that may be added or removed. -/
def Extension.optional (e : Extension) : Bool :=
  e.type == tlsextTypeEarlyData || e.type == tlsextTypeCookie || e.type == tlsextTypePadding

/-- The types of the extensions whose contents may change. -/
def mayChange (type : UInt16) : Bool :=
  type == tlsextTypePreSharedKey || type == tlsextTypeKeyShare

/-- What must not change of an extension. -/
def Extension.fixed (e : Extension) : UInt16 × Option (List UInt8) :=
  (e.type, if mayChange e.type then none else some e.cbs)

/-- What must not change of a list of extensions. -/
def fixedPart (known : UInt16 → Bool) (extensions : List Extension) :
    List (UInt16 × Option (List UInt8)) :=
  (extensions.filter fun e => known e.type && !e.optional).map Extension.fixed

/-- What an extension that is not left out adds to the stream. -/
def encoding (order : ByteOrder) (e : Extension) : List UInt8 :=
  order.bytes e.type ++
    if mayChange e.type then [] else order.bytes (UInt16.ofNat e.cbs.length) ++ e.cbs

variable {order : ByteOrder} {succeeds : Nat → Bool} {known : UInt16 → Bool}

theorem length_bytes (order : ByteOrder) (n : UInt16) : (order.bytes n).length = 2 := by
  cases order <;> rfl

theorem bytes_injective {n m : UInt16} (same : order.bytes n = order.bytes m) : n = m := by
  have parts : UInt8.ofNat (n.toNat % 256) = UInt8.ofNat (m.toNat % 256) ∧
      UInt8.ofNat (n.toNat / 256) = UInt8.ofNat (m.toNat / 256) := by
    cases order with
    | little => simpa [ByteOrder.bytes] using same
    | big => simpa [ByteOrder.bytes, and_comm] using same
  have low := congrArg UInt8.toNat parts.1
  have high := congrArg UInt8.toNat parts.2
  rw [UInt8.toNat_ofNat', UInt8.toNat_ofNat'] at low high
  have := n.toNat_lt
  have := m.toNat_lt
  apply UInt16.toNat_inj.1
  omega

theorem reads_type : Reads (fun e : Extension => order.bytes e.type) Extension.type :=
  Reads.fixed 2 (fun _ => length_bytes order _) fun _ _ same => bytes_injective same

theorem reads_contents :
    Reads (fun e : Extension => order.bytes (UInt16.ofNat e.cbs.length) ++ e.cbs)
      Extension.cbs := by
  refine Reads.counted (Reads.fixed 2 (fun _ => length_bytes order _) fun e e' same => ?_)
  have lengths := congrArg UInt16.toNat (bytes_injective same)
  rwa [UInt16.toNat_ofNat_of_lt' e.short, UInt16.toNat_ofNat_of_lt' e'.short] at lengths

/-- The encoding of an extension determines what must not change of it. -/
theorem encoding_reads : Reads (encoding order) Extension.fixed := by
  show Reads
    (fun e : Extension => order.bytes e.type ++
      if mayChange e.type then [] else order.bytes (UInt16.ofNat e.cbs.length) ++ e.cbs)
    fun e => (e.type, if mayChange e.type then none else some e.cbs)
  refine Reads.seq reads_type ?_
  intro e e' rest rest' types same
  simp only [types] at same ⊢
  by_cases change : mayChange e'.type = true
  · rw [if_pos change, if_pos change] at same
    rw [if_pos change, if_pos change]
    exact ⟨rfl, same⟩
  · rw [if_neg change, if_neg change] at same
    rw [if_neg change, if_neg change]
    obtain ⟨contents, rests⟩ := reads_contents e e' rest rest' same
    exact ⟨congrArg some contents, rests⟩

/-- It depends on nothing else. -/
theorem encoding_of_fixed (e : Extension) :
    encoding order e = order.bytes e.fixed.1 ++
      (e.fixed.2.elim [] fun cbs => order.bytes (UInt16.ofNat cbs.length) ++ cbs) := by
  unfold encoding Extension.fixed
  by_cases change : mayChange e.type = true
  · rw [if_pos change, if_pos change]
    rfl
  · rw [if_neg change, if_neg change]
    rfl

theorem encoding_ne_nil (e : Extension) : encoding order e ≠ [] := by
  intro empty
  have type := (List.append_eq_nil_iff.1 empty).1
  have length := length_bytes order e.type
  rw [type] at length
  cases length

theorem hashUpdateBytes_eq_some {ctx c : HashCtx} {data : List UInt8}
    (run : hashUpdateBytes succeeds ctx data = some c) : c.stream = ctx.stream ++ data := by
  unfold hashUpdateBytes at run
  by_cases done : succeeds ctx.updates = true
  · rw [if_pos done] at run
    rw [← Option.some.inj run]
  · rw [if_neg done] at run
    cases run

/-- What a completed call adds to the stream. -/
theorem hashExtension_eq_some {ctx c : HashCtx} {e : Extension}
    (run : hashExtension order succeeds ctx e.type e.cbs = some c) :
    c.stream = ctx.stream ++ if e.optional then [] else encoding order e := by
  have optional : e.optional = true ↔ e.type = tlsextTypeEarlyData ∨ e.type = tlsextTypeCookie ∨
      e.type = tlsextTypePadding := by
    simp [Extension.optional, or_assoc]
  have change : mayChange e.type = true ↔
      e.type = tlsextTypePreSharedKey ∨ e.type = tlsextTypeKeyShare := by
    simp [mayChange]
  unfold hashExtension at run
  simp only [← optional, ← change] at run
  by_cases left : e.optional = true
  · rw [if_pos left] at run ⊢
    rw [← Option.some.inj run, List.append_nil]
  · rw [if_neg left] at run ⊢
    obtain ⟨typed, first, run⟩ := Option.bind_eq_some_iff.1 run
    have typeFed := hashUpdateBytes_eq_some first
    unfold encoding
    by_cases may : mayChange e.type = true
    · rw [if_pos may] at run ⊢
      rw [← Option.some.inj run, typeFed, List.append_nil]
    · rw [if_neg may] at run ⊢
      obtain ⟨counted, second, last⟩ := Option.bind_eq_some_iff.1 run
      rw [hashUpdateBytes_eq_some last, hashUpdateBytes_eq_some second, typeFed,
        List.append_assoc, List.append_assoc]

/-- What the whole list adds to the stream. -/
theorem hashExtensions_eq_some {ctx c : HashCtx} {extensions : List Extension}
    (run : hashExtensions order succeeds known ctx extensions = some c) :
    c.stream = ctx.stream ++
      (extensions.filter fun e => known e.type && !e.optional).flatMap (encoding order) := by
  induction extensions generalizing ctx with
  | nil =>
    rw [← Option.some.inj run]
    exact (List.append_nil _).symm
  | cons e extensions ih =>
    rw [hashExtensions] at run
    by_cases knows : known e.type = true
    · rw [if_pos knows] at run
      obtain ⟨m, first, rest⟩ := Option.bind_eq_some_iff.1 run
      rw [ih rest, hashExtension_eq_some first, List.append_assoc]
      by_cases left : e.optional = true
      · rw [if_pos left, List.filter_cons_of_neg (by simp [left])]
        rfl
      · rw [if_neg left, List.filter_cons_of_pos (by simp [left, knows]), List.flatMap_cons]
    · rw [if_neg knows] at run
      rw [ih run, List.filter_cons_of_neg (by simp [knows])]

/-- **The consistency hash**: two lists of extensions are fed to the hash as the same bytes if
and only if they are equal, type by type, content by content and in order, apart from the
extensions that may come and go and the contents that may change; and so it is for their hashes,
if the hash is free of collisions. -/
theorem hashExtensions_stream_iff (order : ByteOrder) (succeeds succeeds' : Nat → Bool)
    (known : UInt16 → Bool) (ctx : HashCtx) (extensions extensions' : List Extension)
    (c c' : HashCtx) (run : hashExtensions order succeeds known ctx extensions = some c)
    (run' : hashExtensions order succeeds' known ctx extensions' = some c') :
    (c.stream = c'.stream ↔ fixedPart known extensions = fixedPart known extensions') ∧
      ∀ (Digest : Type) (hash : List UInt8 → Digest), (∀ x y, hash x = hash y → x = y) →
        (hash c.stream = hash c'.stream ↔
          fixedPart known extensions = fixedPart known extensions') := by
  have streams : c.stream = c'.stream ↔
      fixedPart known extensions = fixedPart known extensions' := by
    rw [hashExtensions_eq_some run, hashExtensions_eq_some run', List.append_cancel_left_eq]
    refine ⟨encoding_reads.flatMap encoding_ne_nil, fun same => ?_⟩
    have fed (kept : List Extension) : kept.flatMap (encoding order) =
        (kept.map Extension.fixed).flatMap fun item => order.bytes item.1 ++
          (item.2.elim [] fun cbs => order.bytes (UInt16.ofNat cbs.length) ++ cbs) := by
      rw [List.flatMap_map]
      exact List.flatMap_congr fun e _ => encoding_of_fixed e
    rw [fed, fed]
    exact congrArg _ same
  exact ⟨streams, fun _ hash free => ⟨fun same => streams.1 (free _ _ same),
    fun same => congrArg hash (streams.2 same)⟩⟩

/-- The first ClientHello of the report: a session ticket and the group 29. -/
def reportFirst : List Extension :=
  [⟨35, [10, 0, 0, 6], by decide⟩, ⟨10, [0, 2, 0, 29], by decide⟩]

/-- The second one: no ticket, and two more groups. -/
def reportSecond : List Extension :=
  [⟨35, [], by decide⟩, ⟨10, [0, 6, 10, 0, 0, 2, 0, 29], by decide⟩]

/-- Their streams, which were equal without the lengths, differ. -/
theorem hashExtensions_stream_iff_report :
    ∃ c c', hashExtensions .little (fun _ => true) (fun _ => true) ⟨[], 0⟩ reportFirst = some c ∧
      hashExtensions .little (fun _ => true) (fun _ => true) ⟨[], 0⟩ reportSecond = some c' ∧
      c.stream ≠ c'.stream := by
  have differ : fixedPart (fun _ => true) reportFirst ≠ fixedPart (fun _ => true) reportSecond := by
    decide
  refine ⟨_, _, rfl, rfl, fun same => differ ?_⟩
  exact (hashExtensions_stream_iff .little (fun _ => true) (fun _ => true) (fun _ => true) ⟨[], 0⟩
    reportFirst reportSecond _ _ rfl rfl).1.1 same

end SecurityAudits.Libressl.ClientHelloHash
