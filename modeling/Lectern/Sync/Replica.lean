import Lectern.Store
import Lectern.Sync.Delivery

/-!
# A device that looks again

A device keeps a copy of the files of its account and reads a file again after
every frame that tells it to, and after every change of its own.  When the
server has come to rest, the copy is right: whatever has changed a file since
the device read it has told the device, and it has not been told since.

The log of a run keeps the server each request found, so the server at any
earlier moment can be read off what was noted afterwards (`serverAt`).
-/

namespace Lectern.Sync

open FileTree Threads

/-! ## Earlier moments -/

section Moments

variable {ε R : Type} {svc : Service ε R}

/-- The server before everything in the list was noted. -/
def serverAt (env : ε) (later : List (Event ε R)) : ε :=
  later.foldl (fun s event =>
    match event with
    | .served _ _ before => before
    | _ => s) env

/-- Each request left the server that was there until the next one. -/
def Chained (svc : Service ε R) : ε → List (Event ε R) → Prop
  | _, [] => True
  | env, .served _ r before :: log => env = (svc.serve r before).1 ∧ Chained svc before log
  | env, _ :: log => Chained svc env log

theorem chained_append {extra log : List (Event ε R)} {env : ε} (h : Chained svc env log)
    (hnone : ∀ i r before, .served i r before ∉ extra) : Chained svc env (extra ++ log) := by
  induction extra with
  | nil => exact h
  | cons event extra ih =>
      have hrest := ih (fun i r before hmem => hnone i r before (List.mem_cons_of_mem _ hmem))
      cases event with
      | served i r before => exact absurd List.mem_cons_self (hnone i r before)
      | _ => exact hrest

/-- **Along every run.** -/
theorem chained_of_reachable {ok : Action (Entry R) Bool → Pool (Sys ε R) (Job R) → Prop}
    {p : Pool (Sys ε R) (Job R)} (hp : Machine.Reachable (machine svc) ok Fresh p) :
    Chained svc p.state.env p.state.log := by
  apply hp.invariant (I := fun p => Chained svc p.state.env p.state.log)
  · intro p hfresh
    rw [hfresh.2.2.2]
    trivial
  · intro action p p' h _ hstep
    rcases Machine.step_cases hstep with ⟨e, s, jobs, rfl, henter, rfl⟩ |
      ⟨before, job, rest, after, returns, s, jobs, rfl, _, hperform, rfl⟩
    · obtain ⟨extra, hlog, hnone, _⟩ := log_enter henter
      dsimp only
      rw [hlog, env_enter henter]
      exact chained_append h hnone
    · have hperform := Option.some.inj hperform
      obtain ⟨extra, hlog, _, hserved⟩ := log_perform hperform
      dsimp only
      by_cases hserve : ∃ r, job = .serve r
      · obtain ⟨r, rfl⟩ := hserve
        cases hperform
        exact ⟨rfl, h⟩
      · rcases env_perform hperform with hsame | ⟨r, hjob, _⟩
        · rw [hlog, hsame]
          exact chained_append h (fun i r env hmem => hserve ⟨r, (hserved i r env hmem).1⟩)
        · exact absurd ⟨r, hjob⟩ hserve

/-- What differs between two moments was changed by a request between them. -/
theorem served_between {α : Type} {f : ε → α} {later earlier : List (Event ε R)} {env : ε}
    (h : Chained svc env (later ++ earlier)) (hne : f (serverAt env later) ≠ f env) :
    ∃ later' i r before between, later = later' ++ .served i r before :: between ∧
      f (svc.serve r before).1 ≠ f before := by
  induction later generalizing env with
  | nil => exact absurd rfl hne
  | cons event later ih =>
      have hskip (henv : Chained svc env (later ++ earlier))
          (hsame : serverAt env (event :: later) = serverAt env later) :
          ∃ later' i r before between, event :: later = later' ++ .served i r before :: between ∧
            f (svc.serve r before).1 ≠ f before := by
        rw [hsame] at hne
        obtain ⟨later', i, r, before, between, rfl, hchanged⟩ := ih henv hne
        exact ⟨event :: later', i, r, before, between, rfl, hchanged⟩
      cases event with
      | served i r before =>
          obtain ⟨henv, hbefore⟩ := h
          by_cases hchanged : f (svc.serve r before).1 = f before
          · have hne' : f (serverAt before later) ≠ f before := by
              rw [← hchanged, ← henv]
              exact hne
            obtain ⟨later', i', r', before', between, rfl, hchanged'⟩ := ih hbefore hne'
            exact ⟨.served i r before :: later', i', r', before', between, rfl, hchanged'⟩
          · exact ⟨[], i, r, before, later, rfl, hchanged⟩
      | _ => exact hskip h rfl

end Moments

/-! ## What a request changes -/

/-- Where nothing has its temporary name, a request changes nothing there. -/
theorem done_temporary {m : Mutation} {answer : Answer} {files : List Str → Option Str}
    {q : List Str} (htemp : m.Temporary q) :
    (m.done answer).foldl (fun files c => c.apply files) files q = files q := by
  cases answer with
  | error e => rfl
  | ok paths =>
      cases m with
      | putFile path content hex =>
          obtain ⟨rel, hrel, rfl⟩ := htemp
          simp [Mutation.done, Mutation.change, hrel, Except.toOption, Change.apply, tempPath_ne]
      | writeThrough access content hex =>
          obtain ⟨rel, hrel, rfl⟩ := htemp
          simp [Mutation.done, Mutation.change, hrel, Except.toOption, Change.apply, tempPath_ne]
      | _ => exact htemp.elim

/-- A request that changes a file of an account has succeeded, and announces a
change to the account. -/
theorem changed_announced {cfg : Config} {r : Request} {s : Server} (hfresh : r.Fresh s) {o : Str}
    {q : List Str} (hne : (serve cfg r s).1.files o q ≠ s.files o q) :
    r.Changed cfg s q ∧ ∃ a, (serve cfg r s).2 = some a ∧ a.ownerId = o := by
  rcases serve_cases cfg r s with ⟨owner, m, hm, hserve⟩ | ⟨_, hsame⟩
  · have howner : o = owner := by
      by_contra ho
      refine hne ?_
      unfold Server.files
      rw [hserve, workspaces_setWorkspace, if_neg ho]
    subst howner
    have hrun := @fileAt_run cfg.limits _ m (fun p hp => hfresh o m p hm hp)
    have hfiles : (serve cfg r s).1.files o =
        (m.done (m.run cfg.limits (s.workspaces o)).2).foldl (fun files c => c.apply files)
          (s.files o) := by
      unfold Server.files
      rw [hserve, workspaces_setWorkspace, if_pos rfl]
      exact hrun
    refine ⟨⟨o, m, hm, ?_, hne⟩, ?_⟩
    · intro htemp
      rw [hfiles, done_temporary htemp] at hne
      exact hne rfl
    · unfold serve
      rw [hm]
      dsimp only
      unfold change
      rcases hanswer : m.run cfg.limits (s.workspaces o) with ⟨w, answer⟩
      cases answer with
      | ok paths => exact ⟨_, rfl, rfl⟩
      | error e =>
          rw [hfiles, hanswer] at hne
          exact absurd rfl hne
  · refine absurd ?_ hne
    unfold Server.files
    rw [hsame]

/-! ## The copy -/

section Copy

variable {cfg : Config} {parse : Str → Option Json}

/-- The device has been told of the file: a frame that makes it look at the file
has been sent, or its own change of the file announced. -/
def Prompted (events : List (Event Server Request)) (c : Nat) (u : Str) (q : List Str) : Prop :=
  (∃ id frame, .sent c id frame ∈ events ∧ frame.Covers q) ∨
  ∃ i a connections conn, .notified i a connections ∈ events ∧ (c, conn) ∈ connections ∧
    a.ownerId = u ∧ a.originDevice ≠ [] ∧ conn.device = a.originDevice ∧
    (a.paths = [] ∨ keyOf q ∈ a.paths)

/-- A copy of the account's files, each as it was at some moment since which the
device has not been told of it. -/
def Copies (p : Pool (Sys Server Request) (Job Request)) (c : Nat) (u : Str)
    (copy : List Str → Option Str) : Prop :=
  ∀ q, ∃ later earlier, p.state.log = later ++ earlier ∧
    copy q = (serverAt p.state.env later).files u q ∧ ¬ Prompted later c u q

/-- Every request found its temporary name free and announced paths that can be
serialised. -/
def Clean (cfg : Config) (log : List (Event Server Request)) : Prop :=
  ∀ i r before, .served i r before ∈ log → r.Fresh before ∧
    ∀ a, (serve cfg r before).2 = some a → ∀ path ∈ a.paths, validUtf8 path = true

/-- **The copy converges.**  When every thread of a run in which sends return
normally is through, the copy of a device that is still connected, and has read
each file again since it was last told of it, is what the server has. -/
theorem copy_converges (cfg : Config) (parse : Str → Option Json)
    (p : Pool (Sys Server Request) (Job Request))
    (hp : Machine.Reachable (machine (service cfg parse)) Calm (Boots cfg) p)
    (hclean : Clean cfg p.state.log) (hdone : ∀ t ∈ p.threads, t = [])
    (c j : Nat) (u : Str) (conn : Connection) (hne : u ≠ []) (hadded : .added c u j ∈ p.state.log)
    (hfind : p.state.hub.find c = some conn)
    (copy : List Str → Option Str) (hcopy : Copies p c u copy) :
    copy = p.state.env.files u := by
  have hfresh := hp.mono (fun _ _ h => h) (fun _ h => h.1)
  funext q
  obtain ⟨later, earlier, hlog, hread, hquiet⟩ := hcopy q
  by_contra hdiffers
  have hchained := chained_of_reachable hfresh
  rw [hlog] at hchained
  have hmoments : (serverAt p.state.env later).files u q ≠ p.state.env.files u q := by
    rw [← hread]
    exact hdiffers
  obtain ⟨later', i, r, before, between, rfl, hchanged⟩ :=
    served_between (f := fun s => Server.files s u q) hchained hmoments
  have hsplit : p.state.log = later' ++ .served i r before :: (between ++ earlier) := by
    rw [hlog, List.append_assoc, List.cons_append]
  have hserved : .served i r before ∈ p.state.log := by
    rw [hsplit]
    exact List.mem_append_right _ List.mem_cons_self
  obtain ⟨htemp, hvalid⟩ := hclean i r before hserved
  obtain ⟨hrequest, a, ha, rfl⟩ := changed_announced htemp hchanged
  have hdb := (stored_of_reachable hp).2 i r before hserved
  have hnothing {k : Nat} {t : List (Job Request)} (ht : p.threads[k]? = some t) : t = [] :=
    hdone t (List.mem_of_getElem? ht)
  have hcoming {k : Nat} : ¬ Coming p.threads k c a := by
    rintro ⟨t, ht, job, hjob, _⟩
    rw [hnothing ht] at hjob
    cases hjob
  have hcovers {frame : Frame} (hlooks : frame.Looks a) : frame.Covers q :=
    covers_of_looks hdb ha hlooks hrequest
  rcases (delivers_of_reachable hfresh).handled later' i r before _ a hsplit ha hne
    (hvalid a ha) with ⟨t, ht, hnotify⟩ | hdevices
  · rw [hnothing ht] at hnotify
    cases hnotify
  · rcases hdevices c j conn hadded hfind with hskipped | htold | hahead | hahead
    · obtain ⟨connections, seen, hnotified, hseen, horigin, hdevice⟩ := hskipped
      have hown : Frame.Covers q (.changes a.paths ⟨a.ownerId, seen⟩) := hcovers (Or.inr rfl)
      exact hquiet (Or.inr ⟨i, a, connections, seen, List.mem_append_left _ hnotified, hseen, rfl,
        horigin, hdevice, hown⟩)
    · obtain ⟨id, frame, hsent, hlooks⟩ := htold
      exact hquiet (Or.inl ⟨id, frame, List.mem_append_left _ hsent, hcovers hlooks⟩)
    · exact hcoming hahead
    · exact hcoming hahead

end Copy

/-! ## Ann's device -/

def isServed : Event Server Request → Bool
  | .served .. => true
  | _ => false

/-- A write whose temporary name is free, and which announces ASCII paths. -/
def cleanWrite : Event Server Request → Bool
  | .served _ (.putFile user path content hex device) before =>
      (match fSafeRelPath path with
        | .ok rel => before.files user (tempPath (pathOf rel) hex) = none
        | .error _ => true) &&
      match (serve plainConfig (.putFile user path content hex device) before).2 with
        | some a => a.paths.all (fun path => path.all (fun c => c < 0x80))
        | none => true
  | .served .. => false
  | _ => true

/-- The event tells of no file but `a.mdp`. -/
def onlyOfNote : Event Server Request → Bool
  | .sent _ _ (.changes paths _) => paths = [str "a.mdp"]
  | .sent _ _ .requestChanges => false
  | .notified _ a _ => a.originDevice = [] || a.paths = [str "a.mdp"]
  | _ => true

theorem clean_of_all {log : List (Event Server Request)} (h : log.all cleanWrite = true) :
    Clean plainConfig log := by
  intro i r before hserved
  have hevent := List.all_eq_true.mp h _ hserved
  cases r with
  | putFile user path content hex device =>
      simp only [cleanWrite, Bool.and_eq_true] at hevent
      obtain ⟨hfree, hascii⟩ := hevent
      constructor
      · intro owner m p hm htemp
        cases hm
        obtain ⟨rel, hrel, rfl⟩ := htemp
        rw [hrel] at hfree
        exact of_decide_eq_true hfree
      · intro a ha p hp
        rw [ha] at hascii
        have hall := List.all_eq_true.mp (List.all_eq_true.mp hascii p hp)
        exact validUtf8_of_ascii (fun c hc => of_decide_eq_true (hall c hc))
  | _ => cases hevent

theorem not_prompted_of_all {log : List (Event Server Request)} (h : log.all onlyOfNote = true)
    {c : Nat} {u : Str} {q : List Str} (hq : keyOf q ≠ str "a.mdp") : ¬ Prompted log c u q := by
  rintro (⟨id, frame, hsent, hcovers⟩ |
    ⟨i, a, connections, conn, hnotified, _, _, horigin, _, hown⟩)
  · have hevent := List.all_eq_true.mp h _ hsent
    cases frame with
    | requestChanges => cases hevent
    | changes paths why =>
        rw [show paths = [str "a.mdp"] from of_decide_eq_true hevent] at hcovers
        rcases hcovers with hnil | hmem
        · cases hnil
        · exact hq (List.mem_singleton.mp hmem)
  · have hevent := List.all_eq_true.mp h _ hnotified
    simp only [onlyOfNote, Bool.or_eq_true, decide_eq_true_eq] at hevent
    rw [hevent.resolve_left horigin] at hown
    rcases hown with hnil | hmem
    · cases hnil
    · exact hq (List.mem_singleton.mp hmem)

theorem annWrote_quiet : annWrote.state.log.all cleanWrite = true ∧
    annWrote.threads.map List.length = [0, 0] ∧ (annWrote.state.hub.find 1).isSome = true ∧
    annWrote.state.log.any addsAnn = true ∧
    (annWrote.state.log.takeWhile (fun e => !isServed e)).all onlyOfNote = true ∧
    ((annWrote.state.log.dropWhile (fun e => !isServed e)).head?.any servesAnn) = true := by
  decide +kernel

/-- A copy Ann's device made before the write, but for the file it was then told
of, is right. -/
theorem copy_converges_annWrote :
    ∃ i r before, .served i r before ∈ annWrote.state.log ∧ ∀ q, keyOf q ≠ str "a.mdp" →
      annWrote.state.env.files (str "ann") q = before.files (str "ann") q := by
  obtain ⟨hclean, hlengths, hthere, hadds, hquiet, hserves⟩ := annWrote_quiet
  have hreachable := reachable_annWrote
  generalize annWrote = p at *
  obtain ⟨conn, hfind⟩ := Option.isSome_iff_exists.mp hthere
  obtain ⟨added, hadded, hadds⟩ := List.any_eq_true.mp hadds
  have hdone : ∀ t ∈ p.threads, t = [] := by
    intro t ht
    have hmem : t.length ∈ p.threads.map List.length := List.mem_map_of_mem ht
    rw [hlengths] at hmem
    exact List.length_eq_zero_iff.mp (by simpa using hmem)
  have hsplit :=
    (List.takeWhile_append_dropWhile (p := fun e => !isServed e) (l := p.state.log)).symm
  generalize p.state.log.takeWhile (fun e => !isServed e) = later at *
  generalize p.state.log.dropWhile (fun e => !isServed e) = rest at *
  obtain ⟨event, earlier, rfl⟩ : ∃ event earlier, rest = event :: earlier := by
    cases rest with
    | nil => cases hserves
    | cons event earlier => exact ⟨event, earlier, rfl⟩
  cases event with
  | served i r before =>
      refine ⟨i, r, before, by rw [hsplit]; simp, ?_⟩
      have hcopy : Copies p 1 (str "ann") (fun q =>
          if keyOf q = str "a.mdp" then p.state.env.files (str "ann") q
          else before.files (str "ann") q) := by
        intro q
        by_cases hq : keyOf q = str "a.mdp"
        · refine ⟨[], p.state.log, rfl, if_pos hq, ?_⟩
          rintro (⟨id, frame, hsent, _⟩ | ⟨i, a, connections, conn, hnotified, _⟩)
          · cases hsent
          · cases hnotified
        · refine ⟨later ++ [.served i r before], earlier, ?_, ?_, not_prompted_of_all ?_ hq⟩
          · rw [hsplit, List.append_assoc]
            rfl
          · have hmoment : serverAt p.state.env (later ++ [.served i r before]) = before := by
              simp [serverAt]
            rw [hmoment]
            exact if_neg hq
          · rw [List.all_append, hquiet]
            rfl
      cases added with
      | added c userId j =>
          simp only [addsAnn, Bool.and_eq_true, decide_eq_true_eq] at hadds
          obtain ⟨⟨rfl, rfl⟩, rfl⟩ := hadds
          have hsame := copy_converges plainConfig (fun _ => none) p hreachable (clean_of_all hclean)
            hdone 1 0 (str "ann") conn (by decide) hadded hfind _ hcopy
          intro q hq
          have hat := congrFun hsame q
          rw [if_neg hq] at hat
          exact hat.symm
      | _ => cases hadds
  | _ => cases hserves

end Lectern.Sync
