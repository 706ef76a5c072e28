import Lectern.Export.Session
import Lectern.Text.Word
import Lectern.Threads.Held
import Lectern.Threads.Trace

/-!
# Exports that run at the same time

Every export works in a thread of its own: it puts the account's fonts into the
page, waits for one of the render slots, and holds a slot, then a directory,
then a browser process until it is through.  What it holds is given back on the
way out, in the opposite order, whichever step failed; so a thread here keeps
the destructors of what it holds as the last of its jobs, and a step that throws
simply does not put anything before them.
-/

namespace Lectern.Export

open Text Threads

def cMaxConcurrentRenders : Nat := 2

/-- The page that is printed: the fonts of the account come first in its head. -/
def document (fontStyle html : Str) : Str :=
  match cutWord (str "<head>") html with
  | some (before, after) => before ++ str "<head>" ++ fontStyle ++ after
  | none => fontStyle ++ html

/-- The page is what was sent, with the fonts put right after its first head tag,
or before everything when it has none. -/
def Embeds (fontStyle html page : Str) : Prop :=
  ∃ before after, html = before ++ after ∧ page = before ++ fontStyle ++ after ∧
    (before = [] ∧ ¬ str "<head>" <:+: html ∨
      ∃ pre, before = pre ++ str "<head>" ∧
        ∀ pre' post', html = pre' ++ str "<head>" ++ post' → pre.length ≤ pre'.length)

theorem embeds_document (fontStyle html : Str) :
    Embeds fontStyle html (document fontStyle html) := by
  unfold document
  cases hcut : cutWord (str "<head>") html with
  | none => exact ⟨[], html, rfl, rfl, Or.inl ⟨rfl, cutWord_eq_none_iff.mp hcut⟩⟩
  | some cut =>
      obtain ⟨pre, post⟩ := cut
      obtain ⟨hhtml, hfirst⟩ := cutWord_eq_some_iff.mp hcut
      exact ⟨pre ++ str "<head>", post, hhtml, rfl, Or.inr ⟨pre, rfl, hfirst⟩⟩

/-- What the exports share: the free slots, the temp directories, what
`export.html` holds in each, and the browsers that run. -/
structure Host where
  slots : Nat
  temps : List Str
  pages : Str → Option Str
  browsers : List Nat

/-- A `POST /api/export/pdf` of a user who is signed in. -/
structure ExportCall where
  userId : Str
  html : Str
  deriving DecidableEq, Repr

/-- The file a render's browser is pointed at, in the directory of its export. -/
def pageFile (temp : Str) : Str := temp ++ str "/export.html"

/-- What an export has still to do; the last three are destructors. -/
inductive RenderJob where
  | embed (call : ExportCall)
  | acquire (page : Str)
  | makeTemp (page : Str)
  | write (temp page : Str)
  | spawn (temp : Str)
  | navigate (temp : Str)
  | print (temp : Str)
  | kill (pid : Nat)
  | removeTemp (temp : Str)
  | release

/-- How a step turns out: it goes well, with what it draws or is given, or it
throws or gives up. -/
inductive Outcome where
  | done
  | failed
  | embedded (fontStyle : Str)
  | drew (temp : Str)
  | started (pid : Nat)

/-- `ScopedTempDir`, `ChildProcess` and the slot guard around a render. -/
def renders : Machine Host RenderJob ExportCall Outcome where
  enter call _ h := some (h, [.embed call])
  perform outcome _ job h :=
    match job, outcome with
    | .embed call, .embedded fontStyle => some (h, [.acquire (document fontStyle call.html)])
    | .embed _, .failed => some (h, [])
    | .acquire page, .done =>
        if h.slots = 0 then none
        else some ({ h with slots := h.slots - 1 }, [.makeTemp page, .release])
    -- The queue timeout.
    | .acquire _, .failed => some (h, [])
    | .makeTemp page, .drew temp =>
        some ({ h with temps := temp :: h.temps }, [.write temp page, .removeTemp temp])
    | .makeTemp _, .failed => some (h, [])
    | .write temp page, .done =>
        some ({ h with pages := Function.update h.pages temp (some page) }, [.spawn temp])
    | .write _ _, .failed => some (h, [])
    | .spawn temp, .started pid =>
        some ({ h with browsers := pid :: h.browsers }, [.navigate temp, .kill pid])
    | .spawn _, .failed => some (h, [])
    | .navigate temp, .done => some (h, [.print temp])
    | .navigate _, .failed => some (h, [])
    | .print _, .done => some (h, [])
    | .print _, .failed => some (h, [])
    | .kill pid, .done => some ({ h with browsers := h.browsers.erase pid }, [])
    | .removeTemp temp, .done =>
        some ({ h with temps := h.temps.erase temp,
                       pages := Function.update h.pages temp none }, [])
    -- `remove_all` reports into an error code nobody reads.
    | .removeTemp _, .failed => some (h, [])
    | .release, .done => some ({ h with slots := h.slots + 1 }, [])
    | _, _ => none

/-- Nobody holds anything and nobody has asked for anything. -/
def Idle (p : Pool Host RenderJob) : Prop :=
  p.state.slots = cMaxConcurrentRenders ∧ p.state.temps = [] ∧ p.state.browsers = [] ∧
    p.threads = []

/-- The directory name a step draws. -/
def drawn : Action ExportCall Outcome → Option Str
  | .run _ (.drew temp) => some temp
  | _ => none

/-- No directory has the name that is drawn. -/
def Apart (a : Action ExportCall Outcome) (p : Pool Host RenderJob) : Prop :=
  ∀ temp ∈ drawn a, temp ∉ p.state.temps

instance (a : Action ExportCall Outcome) (p : Pool Host RenderJob) : Decidable (Apart a p) :=
  inferInstanceAs (Decidable (∀ temp ∈ drawn a, temp ∉ p.state.temps))

/-- What a run leaves to be seen. -/
inductive Seen where
  | asked (thread : Nat) (call : ExportCall)
  | embedded (thread : Nat) (fontStyle : Str)
  | made (thread : Nat) (temp : Str)
  | navigated (thread : Nat) (url : Str) (page : Option Str)
  | undeleted (temp : Str)
  deriving DecidableEq, Repr

def see (a : Action ExportCall Outcome) (p : Pool Host RenderJob) : List Seen :=
  match a with
  | .enter call => [.asked p.threads.length call]
  | .run i outcome =>
      match p.threads[i]?, outcome with
      | some (.embed _ :: _), .embedded fontStyle => [.embedded i fontStyle]
      | some (.makeTemp _ :: _), .drew temp => [.made i temp]
      | some (.navigate temp :: _), .done =>
          [.navigated i (fileUrl (pageFile temp)) (p.state.pages temp)]
      | some (.removeTemp temp :: _), .failed => [.undeleted temp]
      | _, _ => []

/-! ## What a thread holds -/

def slotOf : RenderJob → Option Unit
  | .release => some ()
  | _ => none

def pidOf : RenderJob → Option Nat
  | .kill pid => some pid
  | _ => none

def tempOf : RenderJob → Option Str
  | .removeTemp temp => some temp
  | _ => none

/-- The directories that could not be removed. -/
def undeleted (seen : List Seen) : List Str :=
  seen.filterMap (fun event =>
    match event with
    | .undeleted temp => some temp
    | _ => none)

/-- A thread has one step to do, and below it the destructors of what it
holds. -/
inductive Shape : List RenderJob → Prop
  | embed (call : ExportCall) : Shape [.embed call]
  | acquire (page : Str) : Shape [.acquire page]
  | makeTemp (page : Str) : Shape [.makeTemp page, .release]
  | write (temp page : Str) : Shape [.write temp page, .removeTemp temp, .release]
  | spawn (temp : Str) : Shape [.spawn temp, .removeTemp temp, .release]
  | navigate (temp : Str) (pid : Nat) :
      Shape [.navigate temp, .kill pid, .removeTemp temp, .release]
  | print (temp : Str) (pid : Nat) :
      Shape [.print temp, .kill pid, .removeTemp temp, .release]
  | kill (temp : Str) (pid : Nat) : Shape [.kill pid, .removeTemp temp, .release]
  | removeTemp (temp : Str) : Shape [.removeTemp temp, .release]
  | release : Shape [.release]
  | done : Shape []

/-- A thread that holds a browser holds a slot. -/
theorem Shape.browsers_le_slots {t : List RenderJob} (h : Shape t) :
    (t.filterMap pidOf).length ≤ (t.filterMap slotOf).length := by
  cases h <;> first | exact Nat.zero_le _ | exact Nat.le_refl _

/-- A slot is taken when there is one. -/
theorem acquire_done {i : Nat} {page : Str} {jobs : List RenderJob} {h h' : Host}
    (hperform : renders.perform .done i (.acquire page) h = some (h', jobs)) :
    h.slots ≠ 0 ∧ h' = { h with slots := h.slots - 1 } ∧ jobs = [.makeTemp page, .release] := by
  simp only [renders] at hperform
  split at hperform
  · cases hperform
  · rename_i hfree
    cases hperform
    exact ⟨hfree, rfl, rfl⟩

theorem shape_perform {outcome : Outcome} {i : Nat} {job : RenderJob} {rest jobs : List RenderJob}
    {h h' : Host} (hshape : Shape (job :: rest))
    (hperform : renders.perform outcome i job h = some (h', jobs)) : Shape (jobs ++ rest) := by
  cases hshape with
  | embed call =>
      cases outcome <;> cases hperform
      · exact .done
      · exact .acquire _
  | acquire page =>
      cases outcome with
      | done =>
          obtain ⟨_, _, rfl⟩ := acquire_done hperform
          exact .makeTemp page
      | failed =>
          cases hperform
          exact .done
      | embedded | drew | started => cases hperform
  | makeTemp page =>
      cases outcome <;> cases hperform
      · exact .release
      · exact .write _ page
  | write temp page =>
      cases outcome <;> cases hperform
      · exact .spawn temp
      · exact .removeTemp temp
  | spawn temp =>
      cases outcome <;> cases hperform
      · exact .removeTemp temp
      · exact .navigate temp _
  | navigate temp pid =>
      cases outcome <;> cases hperform
      · exact .print temp pid
      · exact .kill temp pid
  | print temp pid =>
      cases outcome <;> cases hperform
      · exact .kill temp pid
      · exact .kill temp pid
  | kill temp pid =>
      cases outcome <;> cases hperform
      exact .removeTemp temp
  | removeTemp temp =>
      cases outcome <;> cases hperform
      · exact .release
      · exact .release
  | release =>
      cases outcome <;> cases hperform
      exact .done

/-- What one step does to the inventory of the host. -/
structure Moved (a : Action ExportCall Outcome) (p : Pool Host RenderJob) (job : RenderJob)
    (jobs : List RenderJob) (h h' : Host) : Prop where
  slots : h'.slots + (jobs.filterMap slotOf).length = h.slots + (slotOf job).toList.length
  browsers : (h'.browsers ++ (pidOf job).toList).Perm
    (jobs.filterMap pidOf ++ ([] ++ h.browsers))
  temps : (h'.temps ++ (tempOf job).toList).Perm
    (jobs.filterMap tempOf ++ (undeleted (see a p) ++ h.temps))

theorem undeleted_see {i : Nat} {outcome : Outcome} {p : Pool Host RenderJob} {job : RenderJob}
    {rest : List RenderJob} (hthread : p.threads[i]? = some (job :: rest))
    (hjob : ∀ temp, job ≠ .removeTemp temp) : undeleted (see (.run i outcome) p) = [] := by
  unfold see
  simp only [hthread]
  split
  · rfl
  · rfl
  · rfl
  · rename_i heq
    cases heq
    exact absurd rfl (hjob _)
  · rfl

theorem moved_perform {i : Nat} {outcome : Outcome} {p : Pool Host RenderJob} {job : RenderJob}
    {rest jobs : List RenderJob} {h' : Host} (hthread : p.threads[i]? = some (job :: rest))
    (hpid : ∀ pid ∈ pidOf job, pid ∈ p.state.browsers)
    (htemp : ∀ temp ∈ tempOf job, temp ∈ p.state.temps)
    (hperform : renders.perform outcome i job p.state = some (h', jobs)) :
    Moved (.run i outcome) p job jobs p.state h' := by
  have hundeleted (hjob : ∀ temp, job ≠ .removeTemp temp) :
      undeleted (see (.run i outcome) p) = [] := undeleted_see hthread hjob
  cases job with
  | embed | makeTemp | write | spawn | navigate | print =>
      have hnone := hundeleted (by simp)
      cases outcome <;> cases hperform <;>
        exact ⟨rfl, by simp [pidOf, List.filterMap_cons],
          by simp [tempOf, hnone, List.filterMap_cons]⟩
  | acquire page =>
      have hnone := hundeleted (by simp)
      cases outcome with
      | done =>
          obtain ⟨hfree, rfl, rfl⟩ := acquire_done hperform
          refine ⟨?_, by simp [pidOf, List.filterMap_cons],
            by simp [tempOf, hnone, List.filterMap_cons]⟩
          show p.state.slots - 1 + 1 = p.state.slots + 0
          omega
      | failed =>
          cases hperform
          exact ⟨rfl, by simp [pidOf], by simp [tempOf, hnone]⟩
      | embedded | drew | started => cases hperform
  | kill pid =>
      have hnone := hundeleted (by simp)
      cases outcome <;> cases hperform
      have hgone := List.perm_cons_erase (hpid pid rfl)
      refine ⟨rfl, ?_, by simp [tempOf, hnone]⟩
      exact List.perm_append_comm.trans hgone.symm
  | removeTemp temp =>
      cases outcome with
      | done =>
          cases hperform
          have hnone : undeleted (see (.run i .done) p) = [] := by
            simp [see, hthread, undeleted]
          have hgone := List.perm_cons_erase (htemp temp rfl)
          refine ⟨rfl, by simp [pidOf], ?_⟩
          rw [hnone]
          exact List.perm_append_comm.trans hgone.symm
      | failed =>
          cases hperform
          have hsome : undeleted (see (.run i .failed) p) = [temp] := by
            simp [see, hthread, undeleted]
          refine ⟨rfl, by simp [pidOf], ?_⟩
          rw [hsome]
          exact List.perm_append_comm
      | embedded | drew | started => cases hperform
  | release =>
      have hnone := hundeleted (by simp)
      cases outcome <;> cases hperform
      exact ⟨rfl, by simp [pidOf], by simp [tempOf, hnone]⟩

/-! ## Where a page comes from -/

/-- The page a thread has been asked for, with the fonts it found. -/
def Wanted (seen : List Seen) (i : Nat) (page : Str) : Prop :=
  ∃ call fontStyle, .asked i call ∈ seen ∧ .embedded i fontStyle ∈ seen ∧
    page = document fontStyle call.html

theorem Wanted.mono {seen seen' : List Seen} {i : Nat} {page : Str} (h : Wanted seen i page)
    (hsub : seen ⊆ seen') : Wanted seen' i page := by
  obtain ⟨call, fontStyle, hasked, hembedded, hpage⟩ := h
  exact ⟨call, fontStyle, hsub hasked, hsub hembedded, hpage⟩

/-- The thread made this directory, and its page is in there. -/
def PageReady (pages : Str → Option Str) (seen : List Seen) (i : Nat) (temp : Str) : Prop :=
  .made i temp ∈ seen ∧ ∃ page, pages temp = some page ∧ Wanted seen i page

theorem PageReady.mono {pages pages' : Str → Option Str} {seen seen' : List Seen} {i : Nat}
    {temp : Str} (h : PageReady pages seen i temp) (hsub : seen ⊆ seen')
    (hpage : pages' temp = pages temp) : PageReady pages' seen' i temp := by
  obtain ⟨hmade, page, hwritten, hwanted⟩ := h
  exact ⟨hsub hmade, page, hpage.trans hwritten, hwanted.mono hsub⟩

/-- What a job has to do with a page that is wanted; the pages on disk too. -/
def Backed (pages : Str → Option Str) (seen : List Seen) (i : Nat) : RenderJob → Prop
  | .embed call => .asked i call ∈ seen
  | .acquire page => Wanted seen i page
  | .makeTemp page => Wanted seen i page
  | .write temp page => .made i temp ∈ seen ∧ Wanted seen i page
  | .spawn temp => PageReady pages seen i temp
  | .navigate temp => PageReady pages seen i temp
  | .print temp => PageReady pages seen i temp ∧
      .navigated i (fileUrl (pageFile temp)) (pages temp) ∈ seen
  | _ => True

/-- A job whose page on disk stays as it was stays backed. -/
theorem Backed.mono {pages pages' : Str → Option Str} {seen seen' : List Seen} {i : Nat}
    {job : RenderJob} (h : Backed pages seen i job) (hsub : seen ⊆ seen')
    (hpages : ∀ temp, job = .spawn temp ∨ job = .navigate temp ∨ job = .print temp →
      pages' temp = pages temp) :
    Backed pages' seen' i job := by
  cases job with
  | embed call => exact hsub h
  | acquire page => exact Wanted.mono h hsub
  | makeTemp page => exact Wanted.mono h hsub
  | write temp page => exact ⟨hsub h.1, Wanted.mono h.2 hsub⟩
  | spawn temp => exact PageReady.mono h hsub (hpages temp (Or.inl rfl))
  | navigate temp => exact PageReady.mono h hsub (hpages temp (Or.inr (Or.inl rfl)))
  | print temp =>
      have hsame := hpages temp (Or.inr (Or.inr rfl))
      refine ⟨PageReady.mono h.1 hsub hsame, ?_⟩
      rw [hsame]
      exact hsub h.2
  | kill | removeTemp | release => trivial

/-- Everything that is known of a run of exports. -/
structure Contained (p : Pool Host RenderJob) (seen : List Seen) : Prop where
  slots : p.state.slots + (p.held slotOf).length = cMaxConcurrentRenders
  browsers : p.state.browsers.Perm (p.held pidOf)
  temps : p.state.temps.Perm (p.held tempOf ++ undeleted seen)
  apart : p.state.temps.Nodup
  shapes : ∀ t ∈ p.threads, Shape t
  backed : ∀ i t, p.threads[i]? = some t → ∀ job ∈ t, Backed p.state.pages seen i job
  navigated : ∀ i url page, .navigated i url page ∈ seen →
    ∃ temp wanted, .made i temp ∈ seen ∧ url = fileUrl (pageFile temp) ∧ page = some wanted ∧
      Wanted seen i wanted

theorem contained_idle {p : Pool Host RenderJob} (h : Idle p) : Contained p [] := by
  obtain ⟨hslots, htemps, hbrowsers, hthreads⟩ := h
  have hheld {β : Type} (gives : RenderJob → Option β) : p.held gives = [] :=
    Pool.held_of_done (by simp [hthreads])
  refine ⟨?_, ?_, ?_, ?_, ?_, ?_, ?_⟩
  · rw [hheld, hslots]
    rfl
  · rw [hheld, hbrowsers]
  · rw [hheld, htemps]
    rfl
  · rw [htemps]
    exact List.nodup_nil
  · simp [hthreads]
  · simp [hthreads]
  · simp

/-- A new export. -/
theorem contained_enter {p : Pool Host RenderJob} {seen : List Seen} (hp : Contained p seen)
    (call : ExportCall) :
    Contained ⟨p.state, p.threads ++ [[.embed call]]⟩ (see (.enter call) p ++ seen) := by
  have hsub : seen ⊆ see (.enter call) p ++ seen := List.subset_append_right _ _
  refine ⟨?_, ?_, ?_, hp.apart, ?_, ?_, ?_⟩
  · have hheld := Machine.held_enter slotOf p p.state [.embed call]
    rw [hheld.length_eq]
    exact hp.slots
  · have hbrowsers := hp.browsers
    rw [← List.append_nil (p.held pidOf)] at hbrowsers
    have hafter : p.state.browsers.Perm
        (Pool.held pidOf ⟨p.state, p.threads ++ [[.embed call]]⟩ ++ []) :=
      Machine.inventory_enter hbrowsers p.state rfl
    simpa using hafter
  · exact Machine.inventory_enter hp.temps p.state rfl
  · intro t ht
    rcases List.mem_append.mp ht with ht | ht
    · exact hp.shapes t ht
    · rw [List.mem_singleton.mp ht]
      exact .embed call
  · intro i t hthread job hjob
    rcases Machine.thread_enter_cases hthread with hold | ⟨rfl, rfl⟩
    · exact (hp.backed i t hold job hjob).mono hsub (fun _ _ => rfl)
    · rw [List.mem_singleton.mp hjob]
      exact List.mem_append_left _ (List.mem_singleton_self _)
  · intro i url page hmem
    rcases List.mem_append.mp hmem with hmem | hmem
    · simp [see] at hmem
    · obtain ⟨temp, wanted, hmade, hurl, hpage, hwanted⟩ := hp.navigated i url page hmem
      exact ⟨temp, wanted, hsub hmade, hurl, hpage, hwanted.mono hsub⟩

theorem temps_perform {i : Nat} {outcome : Outcome} {job : RenderJob} {jobs : List RenderJob}
    {h h' : Host} (hperform : renders.perform outcome i job h = some (h', jobs)) :
    h'.temps = h.temps ∨ (∃ temp, outcome = .drew temp ∧ h'.temps = temp :: h.temps) ∨
      ∃ temp, h'.temps = h.temps.erase temp := by
  cases job with
  | acquire page =>
      cases outcome with
      | done =>
          obtain ⟨_, rfl, _⟩ := acquire_done hperform
          exact Or.inl rfl
      | failed =>
          cases hperform
          exact Or.inl rfl
      | embedded | drew | started => cases hperform
  | makeTemp page =>
      cases outcome <;> cases hperform
      · exact Or.inl rfl
      · exact Or.inr (Or.inl ⟨_, rfl, rfl⟩)
  | removeTemp temp =>
      cases outcome <;> cases hperform
      · exact Or.inr (Or.inr ⟨temp, rfl⟩)
      · exact Or.inl rfl
  | embed | write | spawn | navigate | print | kill | release =>
      cases outcome <;> cases hperform <;> exact Or.inl rfl

/-- Below the step a thread has to do there are only destructors. -/
theorem backed_rest {job job' : RenderJob} {rest : List RenderJob} (hshape : Shape (job :: rest))
    (h : job' ∈ rest) (pages : Str → Option Str) (seen : List Seen) (i : Nat) :
    Backed pages seen i job' := by
  cases hshape <;> simp only [List.mem_cons, List.not_mem_nil, or_false] at h
  case makeTemp => exact h ▸ trivial
  case write => rcases h with rfl | rfl <;> trivial
  case spawn => rcases h with rfl | rfl <;> trivial
  case navigate => rcases h with rfl | rfl | rfl <;> trivial
  case print => rcases h with rfl | rfl | rfl <;> trivial
  case kill => rcases h with rfl | rfl <;> trivial
  case removeTemp => exact h ▸ trivial

/-- What a thread finds backed it leaves backed. -/
theorem backed_perform {i : Nat} {outcome : Outcome} {p : Pool Host RenderJob} {seen : List Seen}
    {job : RenderJob} {rest jobs : List RenderJob} {h' : Host}
    (hthread : p.threads[i]? = some (job :: rest)) (hbacked : Backed p.state.pages seen i job)
    (hperform : renders.perform outcome i job p.state = some (h', jobs)) :
    ∀ job' ∈ jobs, Backed h'.pages (see (.run i outcome) p ++ seen) i job' := by
  have hsub : seen ⊆ see (.run i outcome) p ++ seen := List.subset_append_right _ _
  cases job with
  | embed call =>
      cases outcome <;> cases hperform
      · simp
      · rename_i fontStyle
        intro job' hjob'
        rw [List.mem_singleton.mp hjob']
        refine ⟨call, fontStyle, hsub hbacked, ?_, rfl⟩
        simp [see, hthread]
  | acquire page =>
      cases outcome with
      | done =>
          obtain ⟨_, rfl, rfl⟩ := acquire_done hperform
          intro job' hjob'
          rcases List.mem_pair.mp hjob' with rfl | rfl
          · exact Wanted.mono hbacked hsub
          · trivial
      | failed =>
          cases hperform
          simp
      | embedded | drew | started => cases hperform
  | makeTemp page =>
      cases outcome <;> cases hperform
      · simp
      · rename_i temp
        intro job' hjob'
        rcases List.mem_pair.mp hjob' with rfl | rfl
        · refine ⟨?_, Wanted.mono hbacked hsub⟩
          simp [see, hthread]
        · trivial
  | write temp page =>
      cases outcome <;> cases hperform
      · intro job' hjob'
        rw [List.mem_singleton.mp hjob']
        exact ⟨hsub hbacked.1, page, Function.update_self _ _ _, Wanted.mono hbacked.2 hsub⟩
      · simp
  | spawn temp =>
      cases outcome <;> cases hperform
      · simp
      · intro job' hjob'
        rcases List.mem_pair.mp hjob' with rfl | rfl
        · exact PageReady.mono hbacked hsub rfl
        · trivial
  | navigate temp =>
      cases outcome <;> cases hperform
      · intro job' hjob'
        rw [List.mem_singleton.mp hjob']
        refine ⟨PageReady.mono hbacked hsub rfl, ?_⟩
        simp [see, hthread]
      · simp
  | print | kill | removeTemp | release => cases outcome <;> cases hperform <;> simp

/-- Only the page in a directory the thread holds changes. -/
theorem pages_perform {i : Nat} {outcome : Outcome} {job : RenderJob} {rest jobs : List RenderJob}
    {h h' : Host} (hshape : Shape (job :: rest))
    (hperform : renders.perform outcome i job h = some (h', jobs)) {temp : Str}
    (htemp : temp ∉ (job :: rest).filterMap tempOf) : h'.pages temp = h.pages temp := by
  cases job with
  | acquire page =>
      cases outcome with
      | done =>
          obtain ⟨_, rfl, _⟩ := acquire_done hperform
          rfl
      | failed =>
          cases hperform
          rfl
      | embedded | drew | started => cases hperform
  | write own page =>
      cases outcome <;> cases hperform
      · cases hshape
        have hne : temp ≠ own := by
          rintro rfl
          exact htemp (List.mem_filterMap.mpr ⟨.removeTemp temp, by simp, rfl⟩)
        exact Function.update_of_ne hne _ _
      · rfl
  | removeTemp own =>
      cases outcome <;> cases hperform
      · have hne : temp ≠ own := by
          rintro rfl
          exact htemp (List.mem_filterMap.mpr ⟨.removeTemp temp, by simp, rfl⟩)
        exact Function.update_of_ne hne _ _
      · rfl
  | embed | makeTemp | spawn | navigate | print | kill | release =>
      cases outcome <;> cases hperform <;> rfl

/-- A thread whose page is on disk holds its directory. -/
theorem Shape.holds_temp {t : List RenderJob} (h : Shape t) {job : RenderJob} (hjob : job ∈ t)
    {temp : Str} (htemp : job = .spawn temp ∨ job = .navigate temp ∨ job = .print temp) :
    temp ∈ t.filterMap tempOf := by
  refine List.mem_filterMap.mpr ⟨.removeTemp temp, ?_, rfl⟩
  cases h <;> rcases htemp with rfl | rfl | rfl <;> simp at hjob <;> simp [hjob]

/-- Where a browser is pointed. -/
theorem navigated_see {i k : Nat} {outcome : Outcome} {p : Pool Host RenderJob} {job : RenderJob}
    {rest : List RenderJob} (hthread : p.threads[k]? = some (job :: rest)) {url : Str}
    {page : Option Str} (h : .navigated i url page ∈ see (.run k outcome) p) :
    i = k ∧ ∃ temp, job = .navigate temp ∧ url = fileUrl (pageFile temp) ∧
      page = p.state.pages temp := by
  unfold see at h
  simp only [hthread] at h
  split at h
  · simp at h
  · simp at h
  · rename_i heq
    cases heq
    simp only [List.mem_singleton, Seen.navigated.injEq] at h
    exact ⟨h.1, _, rfl, h.2⟩
  · simp at h
  · simp at h

/-- One step of an export. -/
theorem contained_run {p : Pool Host RenderJob} {seen : List Seen} (hp : Contained p seen)
    {before after : List (List RenderJob)} {job : RenderJob} {rest jobs : List RenderJob}
    {outcome : Outcome} {h' : Host} (hthreads : p.threads = before ++ (job :: rest) :: after)
    (happart : Apart (.run before.length outcome) p)
    (hperform : renders.perform outcome before.length job p.state = some (h', jobs)) :
    Contained ⟨h', before ++ (jobs ++ rest) :: after⟩
      (see (.run before.length outcome) p ++ seen) := by
  have hthread : p.threads[before.length]? = some (job :: rest) := by
    rw [hthreads]
    exact Machine.thread_self _ _ _
  have hjob : job ∈ p.jobs := Machine.mem_head hthreads
  have hshape := hp.shapes (job :: rest) (List.mem_of_getElem? hthread)
  have hmoved := moved_perform hthread
    (fun pid hpid => hp.browsers.mem_iff.mpr (Pool.mem_held.mpr ⟨job, hjob, hpid⟩))
    (fun temp htemp => hp.temps.mem_iff.mpr
      (List.mem_append_left _ (Pool.mem_held.mpr ⟨job, hjob, htemp⟩))) hperform
  have hsub : seen ⊆ see (.run before.length outcome) p ++ seen := List.subset_append_right _ _
  have htemps := Machine.inventory_run hthreads hp.temps h' hmoved.temps
  refine ⟨?_, ?_, ?_, ?_, ?_, ?_, ?_⟩
  · obtain ⟨others, hold, hnew⟩ := Machine.held_run slotOf hthreads h' jobs
    have hslots := hp.slots
    have hcount := hmoved.slots
    rw [hold.length_eq, List.length_append] at hslots
    show h'.slots + _ = _
    rw [hnew.length_eq, List.length_append]
    omega
  · have hbrowsers := hp.browsers
    rw [← List.append_nil (p.held pidOf)] at hbrowsers
    simpa using Machine.inventory_run hthreads hbrowsers h' hmoved.browsers
  · rw [undeleted, List.filterMap_append]
    exact htemps
  · rcases temps_perform hperform with hsame | ⟨temp, rfl, hnew⟩ | ⟨temp, hgone⟩
    · exact hsame.symm ▸ hp.apart
    · exact hnew.symm ▸ List.nodup_cons.mpr ⟨happart temp rfl, hp.apart⟩
    · exact hgone.symm ▸ hp.apart.erase temp
  · intro t ht
    rcases List.mem_append.mp ht with ht | ht
    · exact hp.shapes t (hthreads ▸ List.mem_append_left _ ht)
    · rcases List.mem_cons.mp ht with rfl | ht
      · exact shape_perform hshape hperform
      · exact hp.shapes t (hthreads ▸ List.mem_append_right _ (List.mem_cons_of_mem _ ht))
  · have hheld := (List.nodup_append.mp (hp.temps.nodup_iff.mp hp.apart)).1
    intro i t ht job' hjob'
    rcases Machine.thread_run_cases (job :: rest) ht with ⟨hi, hother⟩ | ⟨rfl, rfl⟩
    · rw [← hthreads] at hother
      refine (hp.backed i t hother job' hjob').mono hsub ?_
      intro temp htemp
      have hmine := (hp.shapes t (List.mem_of_getElem? hother)).holds_temp hjob' htemp
      exact pages_perform hshape hperform
        (fun hown => hi (Machine.held_apart hheld hother hthread hmine hown))
    · rcases List.mem_append.mp hjob' with hjob' | hjob'
      · exact backed_perform hthread (hp.backed _ _ hthread job List.mem_cons_self) hperform
          job' hjob'
      · exact backed_rest hshape hjob' _ _ _
  · intro i url page hmem
    rcases List.mem_append.mp hmem with hmem | hmem
    · obtain ⟨rfl, temp, rfl, hurl, hpage⟩ := navigated_see hthread hmem
      obtain ⟨hmade, wanted, hwritten, hwanted⟩ := hp.backed _ _ hthread _ List.mem_cons_self
      exact ⟨temp, wanted, hsub hmade, hurl, hpage.trans hwritten, hwanted.mono hsub⟩
    · obtain ⟨temp, wanted, hmade, hurl, hpage, hwanted⟩ := hp.navigated i url page hmem
      exact ⟨temp, wanted, hsub hmade, hurl, hpage, hwanted.mono hsub⟩

/-- **Along every run.** -/
theorem contained {p : Pool Host RenderJob} {seen : List Seen}
    (h : renders.Observed see Apart Idle p seen) : Contained p seen := by
  refine Machine.Observed.invariant (fun p hp => contained_idle hp) ?_ h
  intro a p p' seen _ hp hok hstep
  rcases Machine.step_cases hstep with
    ⟨call, s, jobs, rfl, henter, rfl⟩ |
    ⟨before, job, rest, after, outcome, s, jobs, rfl, hthreads, hperform, rfl⟩
  · cases henter
    exact contained_enter hp call
  · exact contained_run hp hthreads hok hperform

/-- Each browser runs in a slot. -/
theorem Contained.browsers_le {p : Pool Host RenderJob} {seen : List Seen} (h : Contained p seen) :
    p.state.browsers.length ≤ cMaxConcurrentRenders := by
  have hle : (p.held pidOf).length ≤ (p.held slotOf).length :=
    Pool.held_length_le (fun t ht => (h.shapes t ht).browsers_le_slots)
  have hslots := h.slots
  have hbrowsers := h.browsers.length_eq
  omega

/-- **No render outlives its export.**  At most two browsers run; each belongs to
an export that is still going to kill it, and each directory to one that is going
to remove it or has failed to.  When all exports are through, both slots are
free, no browser runs, and the only directories left are those that could not be
removed.  And an export points its browser at the page file of the directory it
made, which holds the page it was asked for, with the fonts it found, and goes on
to hold it while the browser prints, whatever the other exports do. -/
theorem renders_contained {p : Pool Host RenderJob} {seen : List Seen}
    (h : renders.Observed see Apart Idle p seen) :
    p.state.browsers.length ≤ cMaxConcurrentRenders ∧
    (∀ pid ∈ p.state.browsers, RenderJob.kill pid ∈ p.jobs) ∧
    (∀ temp ∈ p.state.temps, RenderJob.removeTemp temp ∈ p.jobs ∨ temp ∈ undeleted seen) ∧
    ((∀ t ∈ p.threads, t = []) → p.state.slots = cMaxConcurrentRenders ∧
      p.state.browsers = [] ∧ p.state.temps.Perm (undeleted seen)) ∧
    (∀ i url page, .navigated i url page ∈ seen → ∃ temp call fontStyle wanted,
      .made i temp ∈ seen ∧ url = fileUrl (pageFile temp) ∧ .asked i call ∈ seen ∧
        .embedded i fontStyle ∈ seen ∧ Embeds fontStyle call.html wanted ∧
        page = some wanted) ∧
    ∀ i t temp, p.threads[i]? = some t → .print temp ∈ t → ∃ page,
      .navigated i (fileUrl (pageFile temp)) (some page) ∈ seen ∧
        p.state.pages temp = some page := by
  have hp := contained h
  refine ⟨hp.browsers_le, ?_, ?_, ?_, ?_, ?_⟩
  · intro pid hpid
    obtain ⟨job, hjob, hgives⟩ := Pool.mem_held.mp (hp.browsers.mem_iff.mp hpid)
    cases job <;> cases hgives
    exact hjob
  · intro temp htemp
    refine (List.mem_append.mp (hp.temps.mem_iff.mp htemp)).imp_left ?_
    intro hheld
    obtain ⟨job, hjob, hgives⟩ := Pool.mem_held.mp hheld
    cases job <;> cases hgives
    exact hjob
  · intro hdone
    have hslots := hp.slots
    have hbrowsers := hp.browsers
    have htemps := hp.temps
    rw [Pool.held_of_done hdone] at hslots hbrowsers htemps
    exact ⟨hslots, List.perm_nil.mp hbrowsers, htemps⟩
  · intro i url page hnavigated
    obtain ⟨temp, wanted, hmade, hurl, hpage, call, fontStyle, hasked, hembedded, rfl⟩ :=
      hp.navigated i url page hnavigated
    exact ⟨temp, call, fontStyle, _, hmade, hurl, hasked, hembedded,
      embeds_document fontStyle call.html, hpage⟩
  · intro i t temp hthread hprint
    obtain ⟨⟨_, page, hpage, _⟩, hnavigated⟩ := hp.backed i t hthread _ hprint
    exact ⟨page, hpage ▸ hnavigated, hpage⟩

def idleHost : Pool Host RenderJob := ⟨⟨cMaxConcurrentRenders, [], fun _ => none, []⟩, []⟩

/-- Three exports ask for a slot; the third gives up, the first prints, and the
directory of the second cannot be removed. -/
def threeExports : List (Action ExportCall Outcome) :=
  [.enter ⟨str "ann", str "<head>A"⟩, .enter ⟨str "bob", str "B"⟩, .enter ⟨str "cat", str "C"⟩,
    .run 0 (.embedded (str "f")), .run 1 (.embedded []), .run 2 (.embedded []),
    .run 0 .done, .run 1 .done, .run 2 .failed,
    .run 0 (.drew (str "/tmp/t")), .run 1 (.drew (str "/tmp/u")), .run 0 .done, .run 1 .done,
    .run 0 (.started 7), .run 1 (.started 8), .run 0 .done, .run 0 .done, .run 1 .failed,
    .run 0 .done, .run 1 .done, .run 0 .done, .run 1 .failed, .run 0 .done, .run 1 .done]

def exported : Pool Host RenderJob × List Seen :=
  (renders.execSeen see Apart threeExports idleHost []).getD (idleHost, [])

/-- One directory is left, and the page has its fonts. -/
theorem renders_contained_threeExports :
    exported.1.state.slots = 2 ∧ exported.1.state.browsers = [] ∧
      exported.1.state.temps.Perm [str "/tmp/u"] ∧
      .navigated 0 (str "file:///tmp/t/export.html") (some (str "<head>fA")) ∈ exported.2 := by
  have h : renders.Observed see Apart Idle exported.1 exported.2 :=
    Machine.Observed.execSeen_getD (.start ⟨rfl, rfl, rfl, rfl⟩)
  have hdone : ∀ t ∈ exported.1.threads, t.length = 0 := by decide +kernel
  obtain ⟨hslots, hbrowsers, htemps⟩ := (renders_contained h).2.2.2.1
    (fun t ht => List.length_eq_zero_iff.mp (hdone t ht))
  refine ⟨hslots, hbrowsers, ?_, by decide +kernel⟩
  have hleft : undeleted exported.2 = [str "/tmp/u"] := by decide +kernel
  exact hleft ▸ htemps

end Lectern.Export
