import SecurityAudits.Lib.Run
import SecurityAudits.Lib.Fifo

/-!
# The names of remote users and groups

The sftp client keeps the names that a server gives for its user and group ids (`sftp-usergroup.c`).
The patch bounds the cache: its nodes are in a tree, by their ids, and in a queue, in the order in
which they came, and `idname_enter` takes nodes from the front of the queue while there are too many.
The server chooses the ids and the names, so the three parts must stay in step whatever comes:
`idnameCache_fifo` says that the cache is a bounded FIFO of the first names of its ids, that the calls
of `fatal_f` for a corrupt cache are never reached, and that the nodes in the two structures are the
nodes that are alive.

The tree is `<sys/tree.h>`, the queue `<sys/queue.h>`: a map and a list of addresses of nodes.
-/

namespace SecurityAudits.OpenSsh.IdNameCache
set_option autoImplicit false
open SecurityAudits.Run

abbrev Id := UInt32
abbrev Name := List UInt8
abbrev Address := Nat

/-! ## The functions -/

/-- `struct idname`, without its links. -/
structure IdName where
  id : Id
  name : Name
  deriving DecidableEq, Repr

/-- A tree, its queue and its count, with the nodes in memory. -/
structure Cache where
  heap : Address → Option IdName
  tree : Id → Option Address
  queue : List Address
  count : Nat

def empty : Cache := ⟨fun _ => none, fun _ => none, [], 0⟩

/-- `while (*count > IDNAME_CACHE_MAX)`, on a queue, with any limit `max`. There is no result where
`fatal_f` is called, nor where a node is read that is not alive. -/
def evict (max : Nat) (heap : Address → Option IdName) (tree : Id → Option Address) :
    List Address → Nat → Option Cache
  | [], count => if count > max then none else some ⟨heap, tree, [], count⟩
  | old :: queue, count =>
    if count > max then do
      let node ← heap old
      if tree node.id = some old then
        evict max (Function.update heap old none) (Function.update tree node.id none) queue
          (count - 1)
      else none
    else some ⟨heap, tree, old :: queue, count⟩

/-- `idname_enter`; `idname` is the address that `xcalloc` returns. -/
def idnameEnter (max : Nat) (s : Cache) (idname : Address) (id : Id) (name : Name) : Option Cache :=
  if (s.tree id).isSome then some s
  else
    let heap := Function.update s.heap idname (some ⟨id, name⟩)
    evict max heap (Function.update s.tree id (some idname)) (s.queue ++ [idname]) (s.count + 1)

/-- An id that was asked for, the name in the reply, and where a node for it would lie. -/
structure Resolution where
  address : Address
  id : Id
  name : Option Name
  deriving DecidableEq, Repr

/-- One turn of a loop of `lookup_and_record`. -/
def record (max : Nat) (s : Cache) (r : Resolution) : Option Cache :=
  match r.name with
  | none => some s
  | some name => idnameEnter max s r.address r.id name

/-- `xcalloc` returns memory that is not in use. -/
def Allocates (s : Cache) (r : Resolution) : Prop := s.heap r.address = none

/-- The names that were resolved. -/
def resolved (replies : List Resolution) : List (Id × Name) :=
  replies.filterMap fun r => r.name.map fun name => (r.id, name)

/-! ## The nodes -/

/-- The nodes of a cache, in the order of the queue. -/
structure Nodes (s : Cache) (nodes : List (Address × IdName)) : Prop where
  queue : s.queue = nodes.map Prod.fst
  count : s.count = nodes.length
  /-- a node of the queue is in the tree -/
  linked : ∀ node ∈ nodes, s.heap node.1 = some node.2 ∧ s.tree node.2.id = some node.1
  /-- the tree leads to nodes of the queue -/
  indexed : ∀ id a, s.tree id = some a → ∃ node ∈ nodes, node.1 = a ∧ node.2.id = id
  /-- no node is leaked -/
  live : ∀ a node, s.heap a = some node → (a, node) ∈ nodes
  addresses : (nodes.map Prod.fst).Nodup
  ids : (nodes.map fun node => node.2.id).Nodup

/-- What the nodes say. -/
def contents (nodes : List (Address × IdName)) : List (Id × Name) :=
  nodes.map fun node => (node.2.id, node.2.name)

variable {max : Nat} {s : Cache} {nodes : List (Address × IdName)} {a : Address} {id : Id} {name : Name}
  {heap : Address → Option IdName} {tree : Id → Option Address} {count : Nat}

theorem contents_ids (nodes : List (Address × IdName)) :
    (contents nodes).map Prod.fst = nodes.map fun node => node.2.id := by
  simp [contents]

theorem Nodes.empty : Nodes empty [] where
  queue := rfl
  count := rfl
  linked node found := by cases found
  indexed id a found := by cases found
  live a node found := by cases found
  addresses := List.nodup_nil
  ids := List.nodup_nil

/-- The tree knows the ids of the queue. -/
theorem Nodes.known_iff (inv : Nodes s nodes) :
    (s.tree id).isSome = true ↔ id ∈ (contents nodes).map Prod.fst := by
  rw [contents_ids, List.mem_map, Option.isSome_iff_exists]
  constructor
  · rintro ⟨a, found⟩
    obtain ⟨node, listed, -, same⟩ := inv.indexed id a found
    exact ⟨node, listed, same⟩
  · rintro ⟨node, listed, rfl⟩
    exact ⟨node.1, (inv.linked node listed).2⟩

/-- A lookup finds the names of the queue. -/
theorem Nodes.lookup_iff (inv : Nodes s nodes) :
    ((s.tree id).bind s.heap).map IdName.name = some name ↔ (id, name) ∈ contents nodes := by
  rw [contents, List.mem_map, Option.map_eq_some_iff]
  constructor
  · rintro ⟨node, found, rfl⟩
    obtain ⟨a, indexed, there⟩ := Option.bind_eq_some_iff.1 found
    obtain ⟨other, listed, rfl, rfl⟩ := inv.indexed id a indexed
    obtain rfl := Option.some.inj (there.symm.trans (inv.linked other listed).1)
    exact ⟨other, listed, rfl⟩
  · rintro ⟨node, listed, same⟩
    obtain ⟨rfl, rfl⟩ := Prod.mk.inj same
    obtain ⟨there, indexed⟩ := inv.linked node listed
    exact ⟨node.2, by rw [indexed, Option.bind_some, there], rfl⟩

/-- The node that is added behind the others. -/
theorem Nodes.insert (inv : Nodes s nodes) (name : Name) (fresh : s.heap a = none)
    (new : s.tree id = none) :
    Nodes ⟨Function.update s.heap a (some ⟨id, name⟩), Function.update s.tree id (some a),
      s.queue ++ [a], s.count + 1⟩ (nodes ++ [(a, ⟨id, name⟩)]) := by
  have elsewhere : ∀ node ∈ nodes, node.1 ≠ a ∧ node.2.id ≠ id := by
    intro node listed
    obtain ⟨there, indexed⟩ := inv.linked node listed
    refine ⟨?_, ?_⟩ <;> rintro rfl
    · rw [fresh] at there
      cases there
    · rw [new] at indexed
      cases indexed
  refine ⟨?_, ?_, ?_, ?_, ?_, ?_, ?_⟩
  · simp [inv.queue]
  · simp [inv.count]
  · intro node listed
    rcases List.mem_append.1 listed with old | last
    · obtain ⟨otherAddress, otherId⟩ := elsewhere node old
      simpa [Function.update_of_ne otherAddress, Function.update_of_ne otherId] using
        inv.linked node old
    · obtain rfl := List.mem_singleton.1 last
      simp
  · intro other b (found : Function.update s.tree id (some a) other = some b)
    by_cases same : other = id
    · subst same
      rw [Function.update_self] at found
      exact ⟨(a, ⟨other, name⟩), by simp, Option.some.inj found, rfl⟩
    · rw [Function.update_of_ne same] at found
      obtain ⟨node, listed, there⟩ := inv.indexed other b found
      exact ⟨node, List.mem_append_left _ listed, there⟩
  · intro b node (found : Function.update s.heap a (some ⟨id, name⟩) b = some node)
    by_cases same : b = a
    · subst same
      rw [Function.update_self] at found
      obtain rfl := Option.some.inj found
      simp
    · rw [Function.update_of_ne same] at found
      exact List.mem_append_left _ (inv.live b node found)
  · rw [List.map_append, List.nodup_append]
    refine ⟨inv.addresses, List.nodup_singleton _, ?_⟩
    intro b listed c last
    obtain ⟨node, found, rfl⟩ := List.mem_map.1 listed
    rw [List.map_singleton, List.mem_singleton] at last
    rw [last]
    exact (elsewhere node found).1
  · rw [List.map_append, List.nodup_append]
    refine ⟨inv.ids, List.nodup_singleton _, ?_⟩
    intro b listed c last
    obtain ⟨node, found, rfl⟩ := List.mem_map.1 listed
    rw [List.map_singleton, List.mem_singleton] at last
    rw [last]
    exact (elsewhere node found).2

/-- The node that is taken from the front. -/
theorem Nodes.evict {node : Address × IdName} {queue : List Address}
    (inv : Nodes ⟨heap, tree, node.1 :: queue, count⟩ (node :: nodes)) :
    Nodes ⟨Function.update heap node.1 none, Function.update tree node.2.id none, queue, count - 1⟩
      nodes := by
  have addresses := List.nodup_cons.1 inv.addresses
  have ids := List.nodup_cons.1 inv.ids
  have elsewhere : ∀ other ∈ nodes, other.1 ≠ node.1 ∧ other.2.id ≠ node.2.id := by
    intro other listed
    refine ⟨fun same => addresses.1 ?_, fun same => ids.1 ?_⟩
    · exact same ▸ List.mem_map_of_mem listed
    · exact List.mem_map.2 ⟨other, listed, same⟩
  refine ⟨(List.cons.inj inv.queue).2, ?_, ?_, ?_, ?_, addresses.2, ids.2⟩
  · have counted : count = nodes.length + 1 := inv.count
    show count - 1 = nodes.length
    omega
  · intro other listed
    obtain ⟨otherAddress, otherId⟩ := elsewhere other listed
    simpa [Function.update_of_ne otherAddress, Function.update_of_ne otherId] using
      inv.linked other (List.mem_cons_of_mem _ listed)
  · intro id b (found : Function.update tree node.2.id none id = some b)
    by_cases same : id = node.2.id
    · subst same
      rw [Function.update_self] at found
      cases found
    · rw [Function.update_of_ne same] at found
      obtain ⟨other, listed, there, rfl⟩ := inv.indexed id b found
      rcases List.mem_cons.1 listed with rfl | later
      · exact absurd rfl same
      · exact ⟨other, later, there, rfl⟩
  · intro b other (found : Function.update heap node.1 none b = some other)
    by_cases same : b = node.1
    · subst same
      rw [Function.update_self] at found
      cases found
    · rw [Function.update_of_ne same] at found
      rcases List.mem_cons.1 (inv.live b other found) with here | later
      · exact absurd (congrArg Prod.fst here) same
      · exact later

/-- The loop leaves the newest nodes, and never finds the cache corrupt. -/
theorem evict_nodes (max : Nat) {queue : List Address} (inv : Nodes ⟨heap, tree, queue, count⟩ nodes) :
    ∃ s, evict max heap tree queue count = some s ∧ Nodes s (nodes.rtake max) := by
  induction nodes generalizing heap tree queue count with
  | nil =>
    have none' : queue = [] := inv.queue
    have zero : count = 0 := inv.count
    subst none' zero
    exact ⟨_, if_neg (Nat.not_lt_zero _), by simpa using inv⟩
  | cons node nodes ih =>
    obtain ⟨rest, rfl⟩ : ∃ rest, queue = node.1 :: rest := ⟨_, inv.queue⟩
    have counted : count = nodes.length + 1 := inv.count
    unfold evict
    split
    case isTrue many =>
      obtain ⟨there, indexed⟩ := inv.linked node List.mem_cons_self
      obtain ⟨s, done, kept⟩ := ih inv.evict
      have same : (node :: nodes).rtake max = nodes.rtake max := by
        have shift : (node :: nodes).length - max = (nodes.length - max) + 1 := by
          rw [List.length_cons]
          omega
        rw [List.rtake, List.rtake, shift, List.drop_succ_cons]
      refine ⟨s, ?_, same ▸ kept⟩
      have found : heap node.1 = some node.2 := there
      simp only [found, Option.bind_eq_bind, Option.bind_some]
      rw [if_pos indexed]
      exact done
    case isFalse few =>
      refine ⟨_, rfl, ?_⟩
      rw [Fifo.rtake_of_length_le (by rw [List.length_cons]; omega)]
      exact inv

/-- `idname_enter` is `Fifo.enter` on what the cache says. -/
theorem idnameEnter_nodes (max : Nat) (id : Id) (name : Name) (inv : Nodes s nodes) (fresh : s.heap a = none) :
    ∃ s' nodes', idnameEnter max s a id name = some s' ∧ Nodes s' nodes' ∧
      contents nodes' = Fifo.enter max (contents nodes) (id, name) := by
  unfold idnameEnter
  split
  case isTrue known => exact ⟨s, nodes, rfl, inv, (Fifo.enter_known (inv.known_iff.1 known)).symm⟩
  case isFalse new =>
    have absent : s.tree id = none := Option.not_isSome_iff_eq_none.1 new
    obtain ⟨s', done, kept⟩ := evict_nodes max (inv.insert name fresh absent)
    refine ⟨s', _, done, kept, ?_⟩
    rw [Fifo.enter_new (fun known => new (inv.known_iff.2 known))]
    simp [contents, List.rtake]

/-! ## Runs -/

theorem resolved_cons_none {r : Resolution} (absent : r.name = none) (replies : List Resolution) :
    resolved (r :: replies) = resolved replies := by
  simp [resolved, absent]

theorem resolved_cons_some {r : Resolution} (found : r.name = some name)
    (replies : List Resolution) : resolved (r :: replies) = (r.id, name) :: resolved replies := by
  simp [resolved, found]

theorem exec_nodes (inv : Nodes s nodes) {replies : List Resolution}
    (allocates : Obeys (record max) Allocates s replies) :
    ∃ s' nodes', exec (record max) s replies = some s' ∧ Nodes s' nodes' ∧
      contents nodes' = (resolved replies).foldl (Fifo.enter max) (contents nodes) := by
  induction replies generalizing s nodes with
  | nil => exact ⟨s, nodes, rfl, inv, rfl⟩
  | cons r replies ih =>
    obtain ⟨fresh, later⟩ := allocates
    cases found : r.name with
    | none =>
      have skipped : record max s r = some s := by rw [record, found]
      obtain ⟨s', nodes', run, inv', same⟩ := ih inv (later s skipped)
      refine ⟨s', nodes', exec_cons_eq_some.2 ⟨s, skipped, run⟩, inv', ?_⟩
      rw [same, resolved_cons_none found]
    | some name =>
      obtain ⟨m, nodesOf, done, invOf, entered⟩ := idnameEnter_nodes max r.id name inv fresh
      have recorded : record max s r = some m := by rw [record, found]; exact done
      obtain ⟨s', nodes', run, inv', same⟩ := ih invOf (later m recorded)
      refine ⟨s', nodes', exec_cons_eq_some.2 ⟨m, recorded, run⟩, inv', ?_⟩
      rw [same, resolved_cons_some found, List.foldl_cons, entered]

/-- **The cache is a bounded FIFO.** Whatever the server answers, no call ends in `fatal_f`, and the
cache has the last `max` of the names that found their ids unknown: the tree finds just these, and the
nodes alive are theirs. -/
theorem idnameCache_fifo {replies : List Resolution}
    (allocates : Obeys (record max) Allocates empty replies) :
    ∃ s nodes, exec (record max) empty replies = some s ∧ Nodes s nodes ∧
      contents nodes = (Fifo.admitted max [] (resolved replies)).rtake max ∧
      s.count ≤ max ∧
      ∀ id name, ((s.tree id).bind s.heap).map IdName.name = some name ↔
        (id, name) ∈ contents nodes := by
  obtain ⟨s, nodes, run, inv, same⟩ := exec_nodes Nodes.empty allocates
  have last : contents nodes = (Fifo.admitted max [] (resolved replies)).rtake max :=
    same.trans (Fifo.foldl_enter (Nat.zero_le max) _)
  refine ⟨s, nodes, run, inv, last, ?_, fun id name => inv.lookup_iff⟩
  have bounded := Fifo.length_rtake (Fifo.admitted max [] (resolved replies)) max
  rw [← last, contents, List.length_map, ← inv.count] at bounded
  exact bounded

/-- Two names for one id and a name for another, in a cache of one node. -/
def threeNames : List Resolution := [⟨8, 0, some [97]⟩, ⟨16, 0, some [98]⟩, ⟨16, 7, some [99]⟩]

theorem idnameCache_fifo_threeNames :
    ∃ s nodes, exec (record 1) empty threeNames = some s ∧ Nodes s nodes ∧
      contents nodes = [(7, [99])] ∧ s.count ≤ 1 ∧
      ∀ id name, ((s.tree id).bind s.heap).map IdName.name = some name ↔
        (id, name) ∈ contents nodes := by
  have allocates : Obeys (record 1) Allocates empty threeNames := by
    refine ⟨rfl, fun s taken => ?_⟩
    cases taken
    refine ⟨rfl, fun s taken => ?_⟩
    cases taken
    exact ⟨rfl, fun _ _ => trivial⟩
  exact idnameCache_fifo allocates

end SecurityAudits.OpenSsh.IdNameCache
