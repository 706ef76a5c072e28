import Lectern.Sync.Notification

/-!
# The device a change came from

A PUT through a share or link is announced with the device header of its
request, and `fNotify` passes over every connection that declared this device.
Neither the header nor the declared device is tied to an account.  So the owner
hears of somebody else's write exactly when no connection of the owner, or of
anybody else who follows the file, declared the device of the request.

The write and the notification are looked at apart: the hub may have moved on
since the file was written.
-/

namespace Lectern.Sync

open Threads

/-! ## One path -/

/-- A connection is due a frame for one path unless it is passed over. -/
theorem due_single (conn : Connection) (ownerId path originDevice : Str) :
    due conn ownerId [path] originDevice =
      if originDevice ≠ [] ∧ conn.device = originDevice then none
      else if conn.Owns ownerId ∨ conn.covers ownerId path = true then some [path]
      else none := by
  unfold due concerns
  by_cases hskip : originDevice ≠ [] ∧ conn.device = originDevice
  · rw [if_pos hskip, if_pos hskip]
  · rw [if_neg hskip, if_neg hskip]
    by_cases hown : conn.Owns ownerId
    · simp [hown, capped]
    · by_cases hcovers : conn.covers ownerId path = true
      · simp [hown, hcovers, capped, List.eraseDups_cons]
      · simp [hown, hcovers]

/-- The connection hears of the path. -/
def Reached (conn : Connection) (ownerId path originDevice : Str) : Prop :=
  validUtf8 path = true ∧ ¬ (originDevice ≠ [] ∧ conn.device = originDevice) ∧
    (conn.Owns ownerId ∨ conn.covers ownerId path = true)

instance (conn : Connection) (ownerId path originDevice : Str) :
    Decidable (Reached conn ownerId path originDevice) := by
  unfold Reached
  infer_instance

variable {h : Hub}

theorem received_single (hone : ∀ c conn, h.find c = some conn → conn.watches.length ≤ 1) {c : Nat}
    {conn : Connection} (hfind : h.find c = some conn) (ownerId path originDevice : Str) :
    received c (h.notifyAlone ownerId [path] originDevice).2 =
      if Reached conn ownerId path originDevice then [changesFrame [path]] else [] := by
  rw [received_notifyAlone h hone, hfind, Option.bind_some, due_single]
  by_cases hskip : originDevice ≠ [] ∧ conn.device = originDevice
  · rw [if_pos hskip, if_neg (fun h : Reached _ _ _ _ => h.2.1 hskip)]
    rfl
  · rw [if_neg hskip]
    by_cases hconcerned : conn.Owns ownerId ∨ conn.covers ownerId path = true
    · rw [if_pos hconcerned, Option.filter_some]
      by_cases hutf8 : validUtf8 path = true
      · have hreached : Reached conn ownerId path originDevice := ⟨hutf8, hskip, hconcerned⟩
        rw [if_pos hreached, if_pos (by simpa using hutf8)]
        rfl
      · rw [if_neg (fun h : Reached _ _ _ _ => hutf8 h.1), if_neg (by simpa using hutf8)]
        rfl
    · rw [if_neg hconcerned, if_neg (fun h : Reached _ _ _ _ => hconcerned h.2.2)]
      rfl

/-! ## Who hears of a write -/

/-- Every connection of the owner is told of the path, and nobody is silenced by
the origin device except connections of the account that wrote. -/
def Hears (h : Hub) (writer : Option Str) (ownerId path originDevice : Str) : Prop :=
  (∀ c conn, h.find c = some conn → conn.Owns ownerId →
    received c (h.notifyAlone ownerId [path] originDevice).2 = [changesFrame [path]]) ∧
  ∀ c conn, h.find c = some conn →
    received c (h.notifyAlone ownerId [path] []).2 ≠ [] →
    received c (h.notifyAlone ownerId [path] originDevice).2 = [] →
    writer = some conn.userId

/-- The owner, if connected, is told a path that can be serialised; and among the
connections that are the owner's or follow the path, only those of the account
that wrote have declared the origin device. -/
def Apart (h : Hub) (writer : Option Str) (ownerId path originDevice : Str) : Prop :=
  ∀ c conn, h.find c = some conn →
    (conn.Owns ownerId → validUtf8 path = true) ∧
    (validUtf8 path = true → originDevice ≠ [] → conn.device = originDevice →
      conn.Owns ownerId ∨ conn.covers ownerId path = true → writer = some conn.userId)

theorem hears_iff_apart (hone : ∀ c conn, h.find c = some conn → conn.watches.length ≤ 1)
    {writer : Option Str} {ownerId : Str} (hother : writer ≠ some ownerId)
    (path originDevice : Str) :
    Hears h writer ownerId path originDevice ↔ Apart h writer ownerId path originDevice := by
  constructor
  · intro ⟨htold, hsilenced⟩ c conn hfind
    refine ⟨?_, ?_⟩
    · intro howns
      have hreceived := htold c conn hfind howns
      rw [received_single hone hfind] at hreceived
      by_contra hbad
      rw [if_neg (fun h : Reached _ _ _ _ => hbad h.1)] at hreceived
      cases hreceived
    · intro hutf8 hdevice hsame hconcerned
      apply hsilenced c conn hfind
      · rw [received_single hone hfind,
          if_pos (show Reached _ _ _ _ from ⟨hutf8, fun h => h.1 rfl, hconcerned⟩)]
        exact List.cons_ne_nil _ _
      · rw [received_single hone hfind, 
          if_neg (fun h : Reached _ _ _ _ => h.2.1 ⟨hdevice, hsame⟩)]
  · intro hapart
    refine ⟨?_, ?_⟩
    · intro c conn hfind howns
      obtain ⟨hutf8, hwriter⟩ := hapart c conn hfind
      rw [received_single hone hfind, if_pos]
      refine ⟨hutf8 howns, ?_, Or.inl howns⟩
      intro ⟨hdevice, hsame⟩
      have hself := hwriter (hutf8 howns) hdevice hsame (Or.inl howns)
      exact hother (howns.2 ▸ hself)
    · intro c conn hfind hheard hsilent
      rw [received_single hone hfind] at hheard hsilent
      by_cases hreached : Reached conn ownerId path []
      · obtain ⟨hutf8, _, hconcerned⟩ := hreached
        by_cases hskip : originDevice ≠ [] ∧ conn.device = originDevice
        · exact (hapart c conn hfind).2 hutf8 hskip.1 hskip.2 hconcerned
        · rw [if_pos (show Reached _ _ _ _ from ⟨hutf8, hskip, hconcerned⟩)] at hsilent
          cases hsilent
      · exact absurd (if_neg hreached) hheard

/-! ## Writes through shares and links -/

/-- What a shared PUT announces. -/
theorem announces_sharedWrite {cfg : Config} {caller : Option Str} {s : Server}
    {req : ShareRequest} {device : Str} {access : Access} {content hex : Str}
    (hwrite : sharedWrite caller s req = some (access, content, hex)) {a : Announcement}
    (h : (serve cfg (.share caller req device) s).2 = some a) :
    a = ⟨access.ownerId, [access.relPath], device⟩ := by
  obtain ⟨m, w, paths, hm, hrun, hpaths, hdevice, _⟩ := serve_announces h
  obtain ⟨ownerId, announced, originDevice⟩ := a
  cases hpaths
  cases hdevice
  unfold Request.mutation at hm
  simp only [hwrite, Option.map_some, Option.some.injEq, Prod.mk.injEq] at hm
  obtain ⟨rfl, rfl⟩ := hm
  rcases fWriteThrough_cases cfg.limits access content hex (s.workspaces access.ownerId) with
    ⟨e, he⟩ | ⟨rel, _, _, _, _, _, root, ⟨_, hout⟩ | ⟨_, hout⟩⟩
  · cases he.symm.trans hrun
  · cases hout.symm.trans hrun
  · cases hout.symm.trans hrun
    rfl

/-- **The owner hears of somebody else's write, exactly when.**  Take any server
that is reachable and any state the hub can reach, and a PUT through a share or
link that succeeds for a caller who is not the owner, with any device header.
The path announced is the key of the file written.  All of the owner's
connections are told of it, and only connections of the caller's account are
silenced by the header, if and only if the path can be serialised (when the owner
is connected) and no connection of another account that is the owner's or follows
the path has declared the device of the header. -/
theorem owner_hears_iff (cfg : Config) (s : Server) (hs : Reachable cfg s) {ε R : Type}
    (svc : Service ε R) (p : Pool (Sys ε R) (Job R)) (hp : Run svc p) (caller : Option Str)
    (req : ShareRequest) (device : Str) (access : Access) (content hex : Str)
    (hwrite : sharedWrite caller s req = some (access, content, hex)) (a : Announcement)
    (hsuccess : (serve cfg (.share caller req device) s).2 = some a)
    (hother : caller ≠ some access.ownerId) :
    a = ⟨access.ownerId, [access.relPath], device⟩ ∧
    fSafeRelPath access.relPath = .ok access.relPath ∧
    (Hears p.state.hub caller access.ownerId access.relPath device ↔
      Apart p.state.hub caller access.ownerId access.relPath device) :=
  ⟨announces_sharedWrite hwrite hsuccess, sharedWrite_fixed (reachable_inv hs).1 hwrite,
    hears_iff_apart (one_watch hp) hother _ _⟩

/-! ### Bob writes to Ann's file -/

/-- `"type":"hello"` for the device `browser`, between braces. -/
def helloText : Str :=
  str "\x7b\"device\":\"browser\",\"id\":\"h1\",\"type\":\"hello\"\x7d"

def helloFrame : Json :=
  .object [(str "device", .string (str "browser")), (str "id", .string (str "h1")),
    (str "type", .string (str "hello"))]

def helloService : Service Server Request :=
  service plainConfig (fun text => if text = helloText then some helloFrame else none)

/-- Ann's device is connected and has said that it is `browser`. -/
def annGreets : Pool (Sys Server Request) (Job Request) :=
  ((machine helloService).exec
    [.enter (.connect (str "ann")), .enter (.message 1 helloText), .run 1 true] atRest).getD atRest

theorem run_annGreets : Run helloService annGreets := by
  unfold annGreets
  exact Machine.Reachable.exec_getD (fun _ _ _ => trivial) (.start ⟨rfl, rfl, rfl, rfl⟩)
    (by decide +kernel)

def bobPuts : ShareRequest :=
  .putSharedFile (str "s1") (str "x.mdp") (str "two") (str "01")

/-- Bob's write goes to Ann's `docs/x.mdp`, whatever his header says. -/
theorem sharedWrite_bobPuts : ∃ access content hex,
    sharedWrite (some (str "bob")) sharedDocs bobPuts = some (access, content, hex) ∧
      access.ownerId = str "ann" ∧ access.relPath = str "docs/x.mdp" := by
  have hchecks : ((sharedWrite (some (str "bob")) sharedDocs bobPuts).any (fun found =>
      found.1.ownerId = str "ann" && found.1.relPath = str "docs/x.mdp")) = true := by
    decide +kernel
  obtain ⟨⟨access, content, hex⟩, hfound, hchecks⟩ := (Option.any_eq_true _ _).mp hchecks
  rw [Bool.and_eq_true, decide_eq_true_eq, decide_eq_true_eq] at hchecks
  exact ⟨access, content, hex, hfound, hchecks⟩

/-- From his phone, Bob's write is told to Ann's device. -/
theorem owner_hears_iff_bobPuts :
    received 1 (annGreets.state.hub.notifyAlone (str "ann") [str "docs/x.mdp"] (str "phone")).2 =
      [changesFrame [str "docs/x.mdp"]] := by
  have howns : annGreets.state.hub.connections.all (fun entry =>
      entry.2.device ≠ str "phone") = true ∧
      (annGreets.state.hub.find 1).any (fun conn => conn.Owns (str "ann")) = true := by
    decide +kernel
  have hserved : (serve plainConfig (.share (some (str "bob")) bobPuts (str "phone"))
      sharedDocs).2 = some ⟨str "ann", [str "docs/x.mdp"], str "phone"⟩ := by
    decide +kernel
  have hrun := run_annGreets
  generalize annGreets = p at *
  obtain ⟨access, content, hex, hwrite, howner, hpath⟩ := sharedWrite_bobPuts
  obtain ⟨_, _, hiff⟩ := owner_hears_iff plainConfig sharedDocs reachable_sharedDocs helloService p
    hrun (some (str "bob")) bobPuts (str "phone") access content hex hwrite _ hserved
    (by rw [howner]; decide)
  rw [howner, hpath] at hiff
  have hapart : Apart p.state.hub (some (str "bob")) (str "ann") (str "docs/x.mdp")
      (str "phone") := by
    intro c conn hfind
    refine ⟨fun _ => validUtf8_of_ascii (by decide +kernel), fun _ _ hdevice _ => ?_⟩
    have hother := List.all_eq_true.mp howns.1 _ (Hub.lt_of_find hfind).1
    exact absurd hdevice (of_decide_eq_true hother)
  obtain ⟨conn, hfind, howns⟩ := (Option.any_eq_true _ _).mp howns.2
  exact (hiff.mpr hapart).1 1 conn hfind (of_decide_eq_true howns)

/-- **With the header set to the device Ann's browser declared, Bob's write is
not told to her.** -/
theorem owner_misses_write :
    ¬ ∀ p, Run helloService p → ∀ s, Reachable plainConfig s → ∀ caller req device access content
      hex a, sharedWrite caller s req = some (access, content, hex) →
      (serve plainConfig (.share caller req device) s).2 = some a →
      caller ≠ some access.ownerId →
      Hears p.state.hub caller access.ownerId access.relPath device := by
  intro hall
  obtain ⟨access, content, hex, hwrite, howner, hpath⟩ := sharedWrite_bobPuts
  have hserved : (serve plainConfig (.share (some (str "bob")) bobPuts (str "browser"))
      sharedDocs).2 = some ⟨str "ann", [str "docs/x.mdp"], str "browser"⟩ := by
    decide +kernel
  have hears := hall _ run_annGreets sharedDocs reachable_sharedDocs (some (str "bob")) bobPuts
    (str "browser") access content hex _ hwrite hserved (by rw [howner]; decide)
  rw [howner, hpath] at hears
  have hnone : (received 1 (annGreets.state.hub.notifyAlone (str "ann") [str "docs/x.mdp"]
      (str "browser")).2).length = 0 := by
    decide +kernel
  have howns : (annGreets.state.hub.find 1).any (fun conn => conn.Owns (str "ann")) = true := by
    decide +kernel
  obtain ⟨conn, hfind, howns⟩ := (Option.any_eq_true _ _).mp howns
  rw [hears.1 1 conn hfind (of_decide_eq_true howns)] at hnone
  cases hnone

end Lectern.Sync
