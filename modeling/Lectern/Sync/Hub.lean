import Lectern.Json
import Mathlib.Data.Finset.Insert
import Mathlib.Data.Nat.Digits.Lemmas

/-!
# The change-notification hub

The data of `sync::Hub` and the parts of its methods that run under its lock,
as functions on that data; what happens between two such parts is in the next
module.  The definitions follow `sync_hub.cpp`.

Every connection has its own peer, so a peer is named by its connection.  The
two id counters are natural numbers; a run that exhausts 64 bits is left out.
-/

namespace Lectern.Sync

/-- A path prefix a connection follows.  `request` is the frame it was granted
to; the hub does not keep it, and no definition here reads it. -/
structure Watch where
  owner : Str
  pathPrefix : Str
  request : Json

structure Connection where
  userId : Str
  device : Str
  pending : Finset Str
  watches : List Watch

/-- A registered connection before any frame: `Connection{user_id, "", peer, {}, {}}`. -/
def Connection.fresh (userId : Str) : Connection := ⟨userId, [], ∅, []⟩

/-- Keys in increasing order, all below the next one. -/
abbrev Ordered (connections : List (Nat × Connection)) (next : Nat) : Prop :=
  (connections.map Prod.fst ++ [next]).Pairwise (· < ·)

/-- The connection map, in key order, and the two counters. -/
structure Hub where
  connections : List (Nat × Connection)
  nextConnection : Nat
  nextFrame : Nat
  ordered : Ordered connections nextConnection

theorem Ordered.map {connections : List (Nat × Connection)} {next : Nat}
    (h : Ordered connections next) {f : Nat × Connection → Nat × Connection}
    (hf : ∀ entry, (f entry).1 = entry.1) : Ordered (connections.map f) next := by
  have hkeys : (connections.map f).map Prod.fst = connections.map Prod.fst := by
    rw [List.map_map]
    exact List.map_congr_left (fun entry _ => hf entry)
  unfold Ordered
  rw [hkeys]
  exact h

theorem Ordered.filter {connections : List (Nat × Connection)} {next : Nat}
    (h : Ordered connections next) (f : Nat × Connection → Bool) :
    Ordered (connections.filter f) next :=
  h.sublist ((List.filter_sublist.map Prod.fst).append_right [next])

theorem Ordered.concat {connections : List (Nat × Connection)} {next : Nat}
    (h : Ordered connections next) (conn : Connection) :
    Ordered (connections ++ [(next, conn)]) (next + 1) := by
  unfold Ordered
  rw [List.map_append, List.map_cons, List.map_nil]
  refine List.pairwise_append.mpr ⟨h, List.pairwise_singleton _ _, ?_⟩
  intro key hkey last hlast
  rw [List.mem_singleton.mp hlast]
  rcases List.mem_append.mp hkey with hold | hnew
  · have hlt := (List.pairwise_append.mp h).2.2 key hold next (List.mem_singleton_self next)
    omega
  · rw [List.mem_singleton.mp hnew]
    omega

namespace Hub

def start : Hub := ⟨[], 1, 1, List.pairwise_singleton _ _⟩

/-- `connections_.find`. -/
def find (h : Hub) (c : Nat) : Option Connection :=
  (h.connections.find? (fun entry => entry.1 = c)).map Prod.snd

/-- Change one connection in place. -/
def update (h : Hub) (c : Nat) (f : Connection → Connection) : Hub :=
  { h with
    connections := h.connections.map (fun entry =>
      if entry.1 = c then (entry.1, f entry.2) else entry)
    ordered := h.ordered.map (fun entry => by split <;> rfl) }

/-- `connections_.erase`. -/
def erase (h : Hub) (c : Nat) : Hub :=
  { h with
    connections := h.connections.filter (fun entry => entry.1 ≠ c)
    ordered := h.ordered.filter _ }

end Hub

/-! ## Frames -/

/-- `std::to_string`. -/
def decimal (n : Nat) : Str :=
  if n = 0 then str "0" else (Nat.digits 10 n).reverse.map (fun d => UInt8.ofNat (48 + d))

/-- The id of the n-th frame. -/
def frameId (n : Nat) : Str := str "s" ++ decimal n

/-- Read a decimal back. -/
def value (s : Str) : Nat := s.foldl (fun n c => 10 * n + (c.toNat - 48)) 0

theorem value_digits (ds : List Nat) (h : ∀ d ∈ ds, d < 10) :
    value (ds.reverse.map (fun d => UInt8.ofNat (48 + d))) = Nat.ofDigits 10 ds := by
  induction ds with
  | nil => rfl
  | cons d ds ih =>
      have hd : d < 10 := h d List.mem_cons_self
      have hchar : (UInt8.ofNat (48 + d)).toNat - 48 = d := by
        rw [UInt8.toNat_ofNat']
        omega
      have hrest := ih (fun d hd => h d (List.mem_cons_of_mem _ hd))
      unfold value at hrest ⊢
      rw [List.reverse_cons, List.map_append, List.foldl_append, hrest, Nat.ofDigits_cons]
      simp only [List.map_cons, List.map_nil, List.foldl_cons, List.foldl_nil, hchar]
      omega

theorem value_decimal (n : Nat) : value (decimal n) = n := by
  unfold decimal
  by_cases hn : n = 0
  · rw [if_pos hn, hn]
    rfl
  · rw [if_neg hn, value_digits _ (fun d hd => Nat.digits_lt_base (by omega) hd),
      Nat.ofDigits_digits]

/-- Different frames have different ids. -/
theorem frameId_inj {m n : Nat} (h : frameId m = frameId n) : m = n := by
  have hdecimal : decimal m = decimal n := List.append_cancel_left h
  rw [← value_decimal m, hdecimal, value_decimal]
/-- Why a notification goes to a connection: whose workspace changed, and the
connection as the notification saw it.  Not on the wire. -/
structure Notice where
  owner : Str
  seen : Connection

/-- The frames that are tracked until they are acknowledged. -/
inductive Frame where
  | requestChanges
  | changes (paths : List Str) (why : Notice)

/-- What a frame looks like on the wire, with its id. -/
def Frame.json (id : Str) : Frame → Json
  | .requestChanges =>
      .object [(str "id", .string id), (str "type", .string (str "request_changes"))]
  | .changes paths _ =>
      .object [(str "id", .string id), (str "paths", .array (paths.map .string)),
        (str "type", .string (str "changes"))]

inductive Reply where
  | ack
  | nack
  deriving DecidableEq, Repr

/-! ## Under the lock -/

namespace Hub

/-- `fAdd`: insert the connection. -/
def fAdd (userId : Str) (h : Hub) : Hub :=
  { h with
    connections := h.connections ++ [(h.nextConnection, Connection.fresh userId)]
    nextConnection := h.nextConnection + 1
    ordered := h.ordered.concat _ }

def fRemove (c : Nat) (h : Hub) : Hub := h.erase c

/-- `fSendTracked`: draw an id and remember it as unanswered. -/
def fSendTracked (c : Nat) (h : Hub) : Option (Hub × Str) :=
  match h.find c with
  | none => none
  | some _ =>
      let id := frameId h.nextFrame
      some ({ h with nextFrame := h.nextFrame + 1 }.update c
        (fun conn => { conn with pending := insert id conn.pending }), id)

/-- `fExpire`: drop the connection unless the frame was answered or the
connection is gone. -/
def fExpire (c : Nat) (id : Str) (h : Hub) : Option Hub :=
  match h.find c with
  | none => none
  | some conn => if id ∈ conn.pending then some (h.erase c) else none

/-- `fHandle`: what a frame changes at once, given that its connection is
registered. -/
def fHandle (c : Nat) (frame : Json) (h : Hub) : Hub :=
  let type := frame.fStringField (str "type")
  if type = str "ack" then
    h.update c (fun conn =>
      { conn with pending := conn.pending.erase (frame.fStringField (str "id")) })
  else if type = str "hello" then
    h.update c (fun conn => { conn with device := frame.fStringField (str "device") })
  else h

/-- What is followed from now on: one file at a time. -/
def installed (target : Option (Str × Str)) (frame : Json) : List Watch :=
  match target with
  | some (owner, path) => [⟨owner, path, frame⟩]
  | none => []

/-- `fHandle` after a watch was resolved, or for an unwatch. -/
def follow (c : Nat) (target : Option (Str × Str)) (frame : Json) (h : Hub) : Hub :=
  h.update c (fun conn => { conn with watches := installed target frame })

/-! ### What the locked parts leave as it was -/

/-- The key of a registered connection is one that was given out. -/
theorem lt_of_find {h : Hub} {c : Nat} {conn : Connection} (hfind : h.find c = some conn) :
    (c, conn) ∈ h.connections ∧ c < h.nextConnection := by
  obtain ⟨entry, hentry, hconn⟩ := Option.map_eq_some_iff.mp hfind
  have hmem := List.mem_of_find?_eq_some hentry
  have hkey : entry.1 = c := by simpa using List.find?_some hentry
  have hentry' : entry = (c, conn) := Prod.ext hkey hconn
  rw [hentry'] at hmem
  refine ⟨hmem, ?_⟩
  exact (List.pairwise_append.mp h.ordered).2.2 c (List.mem_map_of_mem hmem) _
    (List.mem_singleton_self _)

/-- Keys are distinct, so an entry is the one that is found. -/
theorem find_of_mem {h : Hub} {c : Nat} {conn : Connection} (hmem : (c, conn) ∈ h.connections) :
    h.find c = some conn := by
  have hkeys : (h.connections.map Prod.fst).Pairwise (· < ·) := (List.pairwise_append.mp h.ordered).1
  unfold find
  generalize h.connections = connections at hmem hkeys ⊢
  induction connections with
  | nil => cases hmem
  | cons entry rest ih =>
      rw [List.map_cons, List.pairwise_cons] at hkeys
      rw [List.find?_cons]
      rcases List.mem_cons.mp hmem with rfl | hrest
      · simp
      · have hlt := hkeys.1 c (List.mem_map_of_mem hrest)
        have hne : entry.1 ≠ c := by omega
        simp only [hne, decide_false]
        exact ih hrest hkeys.2

theorem find_none_of_le {h : Hub} {c : Nat} (hc : h.nextConnection ≤ c) : h.find c = none := by
  cases hfind : h.find c with
  | none => rfl
  | some conn =>
      have hlt := (lt_of_find hfind).2
      omega

@[simp] theorem find_update (h : Hub) (c c' : Nat) (f : Connection → Connection) :
    (h.update c f).find c' = if c' = c then (h.find c').map f else h.find c' := by
  unfold find update
  dsimp only
  induction h.connections with
  | nil => simp
  | cons entry rest ih =>
      rw [List.map_cons, List.find?_cons, List.find?_cons]
      by_cases hc : entry.1 = c
      · rw [if_pos hc]
        by_cases hc' : entry.1 = c'
        · have hsame : c' = c := by omega
          simp [hc', hsame]
        · simp only [hc', decide_false]
          exact ih
      · rw [if_neg hc]
        by_cases hc' : entry.1 = c'
        · have hother : c' ≠ c := by omega
          simp [hc', hother]
        · simp only [hc', decide_false]
          exact ih

@[simp] theorem find_erase (h : Hub) (c c' : Nat) :
    (h.erase c).find c' = if c' = c then none else h.find c' := by
  unfold find erase
  dsimp only
  rw [List.find?_filter]
  by_cases hc : c' = c
  · subst hc
    rw [if_pos rfl, Option.map_eq_none_iff, List.find?_eq_none]
    intro entry _
    simp
  · rw [if_neg hc]
    congr 2
    funext entry
    by_cases hentry : entry.1 = c'
    · simp [hentry, hc]
    · simp [hentry]

@[simp] theorem find_fAdd (h : Hub) (userId : Str) (c : Nat) :
    (h.fAdd userId).find c =
      if c = h.nextConnection then some (Connection.fresh userId) else h.find c := by
  have hlast : h.find h.nextConnection = none := find_none_of_le (le_refl _)
  unfold find at hlast ⊢
  unfold fAdd
  rw [List.find?_append]
  by_cases hc : c = h.nextConnection
  · subst hc
    rw [if_pos rfl, Option.map_eq_none_iff.mp hlast]
    simp
  · rw [if_neg hc]
    have hno : List.find? (fun entry => decide (entry.1 = c))
        [(h.nextConnection, Connection.fresh userId)] = none := by
      simp [Ne.symm hc]
    rw [hno, Option.or_none]

@[simp] theorem find_fRemove (h : Hub) (c c' : Nat) :
    (h.fRemove c).find c' = if c' = c then none else h.find c' := find_erase h c c'

/-- **A tracked frame** needs a registered connection, and is remembered there. -/
theorem fSendTracked_some {c : Nat} {h h' : Hub} {id : Str}
    (hsome : h.fSendTracked c = some (h', id)) :
    (∃ conn, h.find c = some conn) ∧ id = frameId h.nextFrame ∧
      h'.nextFrame = h.nextFrame + 1 ∧ h'.nextConnection = h.nextConnection ∧
      ∀ c', h'.find c' = if c' = c then
        (h.find c').map (fun conn => { conn with pending := insert id conn.pending })
      else h.find c' := by
  unfold fSendTracked at hsome
  cases hfind : h.find c with
  | none => simp [hfind] at hsome
  | some conn =>
      simp only [hfind] at hsome
      cases hsome
      exact ⟨⟨conn, rfl⟩, rfl, rfl, rfl, fun c' => find_update _ c c' _⟩

/-- A timer drops a registered connection whose frame is unanswered. -/
theorem fExpire_some {c : Nat} {id : Str} {h h' : Hub} (hsome : h.fExpire c id = some h') :
    (∃ conn, h.find c = some conn ∧ id ∈ conn.pending) ∧ h' = h.erase c := by
  unfold fExpire at hsome
  cases hfind : h.find c with
  | none => simp [hfind] at hsome
  | some conn =>
      simp only [hfind] at hsome
      by_cases hid : id ∈ conn.pending
      · rw [if_pos hid, Option.some.injEq] at hsome
        exact ⟨⟨conn, rfl, hid⟩, hsome.symm⟩
      · rw [if_neg hid] at hsome
        cases hsome

/-- Otherwise it changes nothing. -/
theorem fExpire_none {c : Nat} {id : Str} {h : Hub} (hnone : h.fExpire c id = none)
    {conn : Connection} (hfind : h.find c = some conn) : id ∉ conn.pending := by
  intro hid
  unfold fExpire at hnone
  simp only [hfind, if_pos hid] at hnone
  cases hnone

end Hub

/-! ## Who hears of a change -/

def fMatchesPrefix (path pathPrefix : Str) : Bool :=
  path = pathPrefix || (pathPrefix ++ [slash]).isPrefixOf path

/-- More than this and the list is dropped. -/
def cMaxPathsPerFrame : Nat := 100

/-- Append the paths a watch covers that are not listed yet. -/
def addVisible (visible : List Str) (watch : Watch) (paths : List Str) : List Str :=
  paths.foldl (fun visible path =>
    if fMatchesPrefix path watch.pathPrefix && !visible.contains path then visible ++ [path]
    else visible) visible

/-- The paths a watcher may see. -/
def watched (conn : Connection) (ownerId : Str) (paths : List Str) : List Str :=
  conn.watches.foldl (fun visible watch =>
    if watch.owner = ownerId then addVisible visible watch paths else visible) []

def ownersDevice (conn : Connection) (ownerId : Str) : Bool :=
  conn.userId ≠ [] && conn.userId = ownerId

/-- What one connection is told of a change, if anything. -/
def announced (conn : Connection) (ownerId : Str) (paths : List Str) (originDevice : Str) :
    Option (List Str) :=
  if originDevice ≠ [] ∧ conn.device = originDevice then none
  else
    let visible := if ownersDevice conn ownerId then paths else watched conn ownerId paths
    if visible = [] ∧ !ownersDevice conn ownerId then none
    else some (if visible.length ≤ cMaxPathsPerFrame then visible else [])

/-- `fNotify` under the lock: the frames to send, in the order of the
connections. -/
def Hub.fNotify (ownerId : Str) (paths : List Str) (originDevice : Str) (h : Hub) :
    List (Nat × Frame) :=
  h.connections.filterMap (fun entry =>
    (announced entry.2 ownerId paths originDevice).map
      (fun visible => (entry.1, .changes visible ⟨ownerId, entry.2⟩)))

end Lectern.Sync
