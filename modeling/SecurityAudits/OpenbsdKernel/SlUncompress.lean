import SecurityAudits.Lib.Checked

/-!
# Headers compressed by Van Jacobson's scheme

`sl_uncompress_tcp_core` (`net/slcompress.c`) decodes the header of a compressed TCP packet: a mask
of changes, the index of the connection if the mask has `NEW_C`, the checksum, and the fields that
the mask asks for, each in one byte or, behind a zero, in two.

`cp` is a distance from `buf`, and a byte is read through a checked access to the `buflen` bytes
there. `decode` is what the three macros `DECODEL`, `DECODES` and `DECODEU` do to `cp`.
-/

namespace SecurityAudits.OpenbsdKernel.SlUncompress
set_option autoImplicit false
open SecurityAudits.Checked

/-- The fields of a connection's last header that a packet changes, in the order of the host. -/
structure Header where
  seq : UInt32
  ack : UInt32
  win : UInt16
  urp : UInt16
  id : UInt16
  sum : UInt16
  deriving DecidableEq, Repr

/-- A field that is decoded with one of the macros. -/
inductive Field where
  | seq
  | ack
  | win
  | urp
  | id
  deriving DecidableEq, Repr

/-- `struct slcompress`: the flag `SLF_TOSS`, the connection of the last packet, and the headers. -/
structure SlCompress where
  toss : Bool
  lastRecv : UInt8
  rstate : UInt8 → Header

/-- What is not in the patch: `MAX_STATES`, the switch over the mask, by the fields that it decodes
for a mask and their order, and the changes that are made without a byte of the packet. -/
structure Unshown where
  maxStates : Nat
  fields : UInt8 → List Field
  implied : UInt8 → Header → Header

def newC : UInt8 := 0x40

variable (buf : Nat → UInt8) (buflen : Int)

/-- `buf[i]`, a byte of the packet. -/
def byte (i : Nat) : Outcome UInt8 := if (i : Int) < buflen then .done (buf i) else .fault

/-- `(p[0] << 8) | p[1]` -/
def short (i : Nat) : Outcome Nat := do
  let hi ← byte buf buflen i
  let lo ← byte buf buflen (i + 1)
  return hi.toNat <<< 8 ||| lo.toNat

/-- The part of the macros that reads: `cp` behind the field, and the number it has. -/
def decode (cp : Nat) : Outcome (Nat × Nat) := do
  require (¬ (cp : Int) ≥ buflen)
  let c ← byte buf buflen cp
  if c = 0 then
    require (¬ buflen - cp < 3)
    let n ← short buf buflen (cp + 1)
    return (cp + 3, n)
  else return (cp + 1, c.toNat)

/-- `DECODEL(f)` -/
def decodeL (cp : Nat) (f : UInt32) : Outcome (Nat × UInt32) := do
  let (cp, n) ← decode buf buflen cp
  return (cp, f + UInt32.ofNat n)

/-- `DECODES(f)` -/
def decodeS (cp : Nat) (f : UInt16) : Outcome (Nat × UInt16) := do
  let (cp, n) ← decode buf buflen cp
  return (cp, f + UInt16.ofNat n)

/-- `DECODEU(f)`: the field is replaced. -/
def decodeU (cp : Nat) : Outcome (Nat × UInt16) := do
  let (cp, n) ← decode buf buflen cp
  return (cp, UInt16.ofNat n)

def decodeField (s : Nat × Header) (f : Field) : Outcome (Nat × Header) :=
  match f with
  | .seq => do
    let (cp, seq) ← decodeL buf buflen s.1 s.2.seq
    return (cp, { s.2 with seq := seq })
  | .ack => do
    let (cp, ack) ← decodeL buf buflen s.1 s.2.ack
    return (cp, { s.2 with ack := ack })
  | .win => do
    let (cp, win) ← decodeS buf buflen s.1 s.2.win
    return (cp, { s.2 with win := win })
  | .urp => do
    let (cp, urp) ← decodeU buf buflen s.1
    return (cp, { s.2 with urp := urp })
  | .id => do
    let (cp, id) ← decodeS buf buflen s.1 s.2.id
    return (cp, { s.2 with id := id })

/-- How the decoding ends when it does not go to `bad`. -/
inductive Result where
  | tossed
  | decoded (cp : Nat) (comp : SlCompress)

/-- The connection: the index in the packet or, if there is none and no packet has been lost, that of
the last packet. `cp` is behind it. -/
def connection (u : Unshown) (changes : UInt8) (comp : SlCompress) :
    Outcome (Option (Nat × SlCompress)) := do
  if changes &&& newC ≠ 0 then
    require (¬ 1 ≥ buflen)
    let index ← byte buf buflen 1
    require (¬ index.toNat ≥ u.maxStates)
    return some (2, { comp with toss := false, lastRecv := index })
  else if comp.toss then return none
  else return some (1, comp)

/-- The case `TYPE_COMPRESSED_TCP` of `sl_uncompress_tcp_core`, up to the end of the header. `fail`
is `goto bad`. -/
def uncompressTcpCore (u : Unshown) (comp : SlCompress) : Outcome Result := do
  require (¬ 0 ≥ buflen)
  let changes ← byte buf buflen 0
  match ← connection buf buflen u changes comp with
  | none => return .tossed
  | some (cp, comp) =>
    require (¬ buflen - cp < 2)
    let sum ← short buf buflen cp
    let header := u.implied changes { comp.rstate comp.lastRecv with sum := UInt16.ofNat sum }
    let (cp, header) ← (u.fields changes).foldlM (decodeField buf buflen) (cp + 2, header)
    return .decoded cp
      { comp with rstate := Function.update comp.rstate comp.lastRecv header }

/-! ## Bounds -/

variable {buf buflen} {cp i : Nat}

theorem safe_byte (inside : (i : Int) < buflen) : (byte buf buflen i).Safe fun _ => True := by
  rw [byte, if_pos inside]
  exact trivial

theorem safe_short (inside : (i : Int) + 1 < buflen) :
    (short buf buflen i).Safe fun _ => True := by
  refine (safe_byte (by omega)).bind fun _ _ => ?_
  exact (safe_byte (by omega)).bind fun _ _ => trivial

theorem decode_safe : (decode buf buflen cp).Safe fun r => (r.1 : Int) ≤ buflen := by
  refine (safe_require _).bind fun _ more => ?_
  refine (safe_byte (by omega)).bind fun c _ => ?_
  split
  · refine (safe_require _).bind fun _ long => ?_
    exact (safe_short (by omega)).bind fun n _ => (by show (cp : Int) + 3 ≤ buflen; omega)
  · show (cp : Int) + 1 ≤ buflen
    omega

theorem decodeField_safe (f : Field) (s : Nat × Header) :
    (decodeField buf buflen s f).Safe fun r => (r.1 : Int) ≤ buflen := by
  cases f <;>
    exact (decode_safe.bind fun _ within => within).bind fun _ within => within

theorem fields_safe (fields : List Field) {s : Nat × Header} (within : (s.1 : Int) ≤ buflen) :
    (fields.foldlM (decodeField buf buflen) s).Safe fun r => (r.1 : Int) ≤ buflen :=
  safe_foldlM (fun _ r => (r.1 : Int) ≤ buflen) (fun f _ s _ => decodeField_safe f s) within

theorem connection_safe (u : Unshown) (changes : UInt8) (comp : SlCompress) :
    (connection buf buflen u changes comp).Safe fun _ => True := by
  unfold connection
  split
  · refine (safe_require _).bind fun _ more => ?_
    refine (safe_byte (by omega)).bind fun index _ => ?_
    exact (safe_require _).bind fun _ _ => trivial
  · split <;> exact trivial

/-- Where the header ends, if it is decoded. -/
def Result.Within (buflen : Int) : Result → Prop
  | .tossed => True
  | .decoded cp _ => 0 ≤ (cp : Int) ∧ (cp : Int) ≤ buflen

/-- **No byte behind the packet is read.** For every packet, every length, every mask of changes and
whatever fields a mask asks for: all bytes read are in the packet, and the header is refused or ends
in the packet. -/
theorem uncompressTcpCore_safe (u : Unshown) (comp : SlCompress) (buf : Nat → UInt8)
    (buflen : Int) : (uncompressTcpCore buf buflen u comp).Safe (Result.Within buflen) := by
  refine (safe_require _).bind fun _ nonempty => ?_
  refine (safe_byte (by omega)).bind fun changes _ => ?_
  refine (connection_safe u changes comp).bind fun found _ => ?_
  rcases found with none | ⟨cp, comp⟩
  · exact trivial
  refine (safe_require _).bind fun _ sum => ?_
  refine (safe_short (by omega)).bind fun n _ => ?_
  have checksum : ((cp + 2 : Nat) : Int) ≤ buflen := by omega
  refine (fields_safe (u.fields changes) checksum).bind fun s within => ?_
  exact ⟨Int.natCast_nonneg _, within⟩

end SecurityAudits.OpenbsdKernel.SlUncompress
