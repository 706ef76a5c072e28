import Mathlib.Data.List.Chain
import Mathlib.Logic.Function.Basic

/-!
# Entries that expire when they are not used

A key is granted to a holder, used, and revoked, each at some time.  A grant is
alive while nothing revokes it and no gap between the grant, its uses and the
present reaches the window.

`Live` says so over a whole history; `book` only keeps, for each key, its holder
and when it was last used.  `live_iff` shows that the book knows as much as the
history.
-/

namespace Sliding

variable {κ υ : Type}

inductive Event (κ υ : Type) where
  | granted (key : κ) (holder : υ)
  | used (key : κ)
  | revoked (key : κ)
  deriving DecidableEq, Repr

/-- Events with their times, the earliest first. -/
abbrev History (κ υ : Type) := List (Event κ υ × Int)

def Event.key : Event κ υ → κ
  | .granted key _ => key
  | .used key => key
  | .revoked key => key

/-- When an event is a use of a key. -/
def useOf [DecidableEq κ] (key : κ) : Event κ υ × Int → Option Int
  | (.used k, t) => if k = key then some t else none
  | _ => none

def grantOf : Event κ υ × Int → Option κ
  | (.granted k _, _) => some k
  | _ => none

/-- The uses of a key. -/
def uses [DecidableEq κ] (key : κ) (h : History κ υ) : List Int := h.filterMap (useOf key)

/-- Consecutive times less than a window apart. -/
def Within (window : Int) (times : List Int) : Prop :=
  times.IsChain (fun a b => b - a < window)

/-- **Alive**: a grant that was not revoked since, with no gap as long as the
window between it, the uses that followed, and now. -/
def Live [DecidableEq κ] (window : Int) (h : History κ υ) (key : κ) (holder : υ) (now : Int) :
    Prop :=
  ∃ before t after, h = before ++ (.granted key holder, t) :: after ∧
    (∀ e ∈ after, e.1 ≠ .revoked key) ∧ Within window (t :: uses key after ++ [now])

/-! ## What the book keeps -/

variable [DecidableEq κ]

/-- Enter one event. -/
def note (book : κ → Option (υ × Int)) : Event κ υ × Int → κ → Option (υ × Int)
  | (.granted key holder, t) => Function.update book key (some (holder, t))
  | (.used key, t) => Function.update book key ((book key).map (fun entry => (entry.1, t)))
  | (.revoked key, _) => Function.update book key none

/-- For every key, its holder and when it was last used. -/
def book (h : History κ υ) : κ → Option (υ × Int) := h.foldl note (fun _ => none)

@[simp] theorem book_nil : book ([] : History κ υ) = fun _ => none := rfl

theorem book_concat (h : History κ υ) (e : Event κ υ × Int) :
    book (h ++ [e]) = note (book h) e := by
  unfold book
  rw [List.foldl_append]
  rfl

/-- A history in which no key is granted twice, and every use is one of a grant
that is alive. -/
structure Proper (window : Int) (h : History κ υ) : Prop where
  granted : (h.filterMap grantOf).Nodup
  used : ∀ before key t after, h = before ++ (.used key, t) :: after →
    ∃ holder last, book before key = some (holder, last) ∧ t - last < window

theorem Proper.left {window : Int} {h h' : History κ υ} (hp : Proper window (h ++ h')) :
    Proper window h := by
  constructor
  · have hgranted := hp.granted
    rw [List.filterMap_append] at hgranted
    exact (List.nodup_append.mp hgranted).1
  · intro before key t after hsplit
    apply hp.used before key t (after ++ h')
    rw [hsplit, List.append_assoc, List.cons_append]

theorem Proper.nil (window : Int) : Proper window ([] : History κ υ) := by
  constructor
  · exact List.nodup_nil
  · intro before key t after hsplit
    exact absurd hsplit (by simp)

/-- One more event: a new key is granted, or one that is alive is used. -/
theorem Proper.concat {window : Int} {h : History κ υ} (hp : Proper window h)
    {e : Event κ υ × Int} (hgranted : ∀ key, grantOf e = some key → key ∉ h.filterMap grantOf)
    (hused : ∀ key t, e = (.used key, t) →
      ∃ holder last, book h key = some (holder, last) ∧ t - last < window) :
    Proper window (h ++ [e]) := by
  constructor
  · rw [List.filterMap_append, List.nodup_append]
    refine ⟨hp.granted, ?_, ?_⟩
    · cases hgrant : grantOf e with
      | none => simp [hgrant]
      | some key => simp [hgrant]
    · intro a ha b hb hab
      have hgrant : grantOf e = some b := by simpa using hb
      exact hgranted b hgrant (hab ▸ ha)
  · intro before key t after hsplit
    rcases List.eq_nil_or_concat after with hnil | ⟨earlier, last, hlast⟩
    · rw [hnil] at hsplit
      obtain ⟨hh, he⟩ := List.append_inj' hsplit rfl
      rw [← hh]
      exact hused key t (List.head_eq_of_cons_eq he)
    · rw [hlast, List.concat_eq_append, ← List.cons_append, ← List.append_assoc] at hsplit
      obtain ⟨hh, _⟩ := List.append_inj' hsplit rfl
      exact hp.used before key t earlier hh

/-- A grant that was not revoked since. -/
def Stands (h : History κ υ) (key : κ) (holder : υ) (t : Int) (after : History κ υ) : Prop :=
  (∃ before, h = before ++ (.granted key holder, t) :: after) ∧
    ∀ e ∈ after, e.1 ≠ .revoked key

omit [DecidableEq κ] in
/-- A grant stands after one more event when it is that event, or stood and is
not revoked by it. -/
theorem stands_concat {h : History κ υ} {e : Event κ υ × Int} {key : κ} {holder : υ} {t : Int}
    {after : History κ υ} :
    Stands (h ++ [e]) key holder t after ↔
      after = [] ∧ e = (.granted key holder, t) ∨
        ∃ earlier, after = earlier ++ [e] ∧ Stands h key holder t earlier ∧ e.1 ≠ .revoked key := by
  constructor
  · intro ⟨⟨before, hsplit⟩, hrevoked⟩
    rcases List.eq_nil_or_concat after with hnil | ⟨earlier, last, hlast⟩
    · left
      rw [hnil] at hsplit
      obtain ⟨_, he⟩ := List.append_inj' hsplit rfl
      exact ⟨hnil, List.head_eq_of_cons_eq he⟩
    · right
      rw [List.concat_eq_append] at hlast
      have hassoc : h ++ [e] = (before ++ (.granted key holder, t) :: earlier) ++ [last] := by
        rw [hsplit, hlast, List.append_assoc, List.cons_append]
      obtain ⟨hh, he⟩ := List.append_inj' hassoc rfl
      have hsame : e = last := List.head_eq_of_cons_eq he
      rw [← hsame] at hlast
      refine ⟨earlier, hlast, ⟨⟨before, hh⟩, ?_⟩, ?_⟩
      · intro e' he'
        exact hrevoked e' (by rw [hlast]; exact List.mem_append_left _ he')
      · exact hrevoked e (by rw [hlast]; simp)
  · intro hcases
    rcases hcases with ⟨hnil, he⟩ | ⟨earlier, hafter, ⟨⟨before, hh⟩, hrevoked⟩, he⟩
    · rw [hnil, he]
      exact ⟨⟨h, rfl⟩, by simp⟩
    · refine ⟨⟨before, ?_⟩, ?_⟩
      · rw [hafter, hh, List.append_assoc, List.cons_append]
      · intro e' he'
        rw [hafter, List.mem_append, List.mem_singleton] at he'
        rcases he' with hin | hlast
        · exact hrevoked e' hin
        · rw [hlast]
          exact he

/-! ## The book agrees with the history -/

theorem within_concat {window t now : Int} {times : List Int} :
    Within window (t :: times ++ [now]) ↔
      Within window (t :: times) ∧ now - times.getLastD t < window := by
  unfold Within
  rw [List.isChain_append]
  constructor
  · intro ⟨hchain, _, hgap⟩
    refine ⟨hchain, hgap _ ?_ now rfl⟩
    rw [List.getLast?_cons, List.getLastD_eq_getLast?]
    rfl
  · intro ⟨hchain, hgap⟩
    refine ⟨hchain, List.isChain_singleton now, ?_⟩
    intro a ha b hb
    rw [List.getLast?_cons, ← List.getLastD_eq_getLast?] at ha
    cases ha
    cases hb
    exact hgap

/-- An event about another key changes nothing for this one. -/
theorem note_apart {e : Event κ υ × Int} {key : κ} (hkey : e.1.key ≠ key)
    (entries : κ → Option (υ × Int)) : note entries e key = entries key := by
  obtain ⟨event, t⟩ := e
  cases event with
  | granted k holder => exact Function.update_of_ne (Ne.symm hkey) _ _
  | used k => exact Function.update_of_ne (Ne.symm hkey) _ _
  | revoked k => exact Function.update_of_ne (Ne.symm hkey) _ _

theorem useOf_apart {e : Event κ υ × Int} {key : κ} (hkey : e.1.key ≠ key) :
    useOf key e = none := by
  obtain ⟨event, t⟩ := e
  cases event with
  | used k => exact if_neg hkey
  | granted k holder => rfl
  | revoked k => rfl

theorem uses_concat (key : κ) (h : History κ υ) (e : Event κ υ × Int) :
    uses key (h ++ [e]) = uses key h ++ (useOf key e).toList := by
  unfold uses
  rw [List.filterMap_append]
  cases huse : useOf key e with
  | none => simp [huse]
  | some t => simp [huse]

/-- A grant that stands, with its uses close together; `last` is the latest of
them. -/
def Kept (window : Int) (h : History κ υ) (key : κ) (holder : υ) (last : Int) : Prop :=
  ∃ t after, Stands h key holder t after ∧ Within window (t :: uses key after) ∧
    last = (uses key after).getLastD t

theorem kept_apart {window : Int} {h : History κ υ} {e : Event κ υ × Int} {key : κ}
    (hkey : e.1.key ≠ key) {holder : υ} {last : Int} :
    Kept window (h ++ [e]) key holder last ↔ Kept window h key holder last := by
  have huses (after : History κ υ) : uses key (after ++ [e]) = uses key after := by
    rw [uses_concat, useOf_apart hkey, Option.toList_none, List.append_nil]
  constructor
  · intro ⟨t, after, hstands, hwithin, hlast⟩
    rcases stands_concat.mp hstands with ⟨_, he⟩ | ⟨earlier, hafter, hearlier, _⟩
    · rw [he] at hkey
      exact absurd rfl hkey
    · rw [hafter, huses] at hwithin hlast
      exact ⟨t, earlier, hearlier, hwithin, hlast⟩
  · intro ⟨t, after, hstands, hwithin, hlast⟩
    refine ⟨t, after ++ [e], stands_concat.mpr (Or.inr ⟨after, rfl, hstands, ?_⟩), ?_, ?_⟩
    · intro hrevoked
      rw [hrevoked] at hkey
      exact hkey rfl
    · rw [huses]
      exact hwithin
    · rw [huses]
      exact hlast

/-- **The book keeps** exactly the grants that stand with their uses close
together, and the latest of these. -/
theorem book_iff {window : Int} {h : History κ υ} (hp : Proper window h) {key : κ} {holder : υ}
    {last : Int} : book h key = some (holder, last) ↔ Kept window h key holder last := by
  induction h using List.reverseRecOn generalizing holder last with
  | nil =>
      constructor
      · intro hbook
        cases hbook
      · intro ⟨t, after, ⟨⟨before, hsplit⟩, _⟩, _⟩
        exact absurd hsplit (by simp)
  | append_singleton h e ih =>
      rw [book_concat]
      by_cases hkey : e.1.key = key
      · obtain ⟨event, t₀⟩ := e
        cases event with
        | granted k u =>
            have hk : k = key := hkey
            subst hk
            have hfresh : ∀ before t u' after, h ≠ before ++ (.granted k u', t) :: after := by
              intro before t u' after hsplit
              have hgranted := hp.granted
              rw [List.filterMap_append, List.nodup_append] at hgranted
              refine hgranted.2.2 k ?_ k (by simp [grantOf]) rfl
              rw [hsplit]
              simp [grantOf]
            change Function.update (book h) k (some (u, t₀)) k = _ ↔ _
            rw [Function.update_self]
            constructor
            · intro hsame
              obtain ⟨hu, ht⟩ := Prod.mk.inj (Option.some.inj hsame)
              rw [← hu, ← ht]
              exact ⟨t₀, [], stands_concat.mpr (Or.inl ⟨rfl, rfl⟩), List.isChain_singleton t₀, rfl⟩
            · intro ⟨t, after, hstands, _, hlast⟩
              rcases stands_concat.mp hstands with ⟨hnil, he⟩ | ⟨earlier, _, hearlier, _⟩
              · cases he
                rw [hlast, hnil]
                rfl
              · obtain ⟨⟨before, hsplit⟩, _⟩ := hearlier
                exact absurd hsplit (hfresh before t holder earlier)
        | used k =>
            have hk : k = key := hkey
            subst hk
            obtain ⟨u, t₁, hbook, hgap⟩ := hp.used h k t₀ [] rfl
            change Function.update (book h) k ((book h k).map (fun entry => (entry.1, t₀))) k = _ ↔ _
            rw [Function.update_self, hbook, Option.map_some]
            have huses (after : History κ υ) :
                uses k (after ++ [(.used k, t₀)]) = uses k after ++ [t₀] := by
              rw [uses_concat]
              simp [useOf]
            constructor
            · intro hsame
              obtain ⟨hu, ht⟩ := Prod.mk.inj (Option.some.inj hsame)
              rw [← hu, ← ht]
              obtain ⟨t, after, hstands, hwithin, hlast⟩ := (ih hp.left).mp hbook
              refine ⟨t, after ++ [(.used k, t₀)],
                stands_concat.mpr (Or.inr ⟨after, rfl, hstands, by simp⟩), ?_, ?_⟩
              · rw [huses, ← List.cons_append, within_concat, ← hlast]
                exact ⟨hwithin, hgap⟩
              · rw [huses]
                simp
            · intro ⟨t, after, hstands, hwithin, hlast⟩
              rcases stands_concat.mp hstands with ⟨_, he⟩ | ⟨earlier, hafter, hearlier, _⟩
              · cases he
              · rw [hafter, huses, ← List.cons_append, within_concat] at hwithin
                rw [hafter, huses] at hlast
                have hkept := (ih hp.left).mpr ⟨t, earlier, hearlier, hwithin.1, rfl⟩
                rw [hbook] at hkept
                cases hkept
                rw [hlast]
                simp
        | revoked k =>
            have hk : k = key := hkey
            subst hk
            change Function.update (book h) k none k = _ ↔ _
            rw [Function.update_self]
            constructor
            · intro hsame
              cases hsame
            · intro ⟨t, after, hstands, _, _⟩
              rcases stands_concat.mp hstands with ⟨_, he⟩ | ⟨_, _, _, hrevoked⟩
              · cases he
              · exact absurd rfl hrevoked
      · rw [note_apart hkey, kept_apart hkey]
        exact ih hp.left

/-- **Alive, by the book**: a key is when the book names its holder and a last
use less than the window ago. -/
theorem live_iff {window : Int} {h : History κ υ} (hp : Proper window h) {key : κ} {holder : υ}
    {now : Int} :
    Live window h key holder now ↔
      ∃ last, book h key = some (holder, last) ∧ now - last < window := by
  constructor
  · intro ⟨before, t, after, hsplit, hrevoked, hwithin⟩
    rw [within_concat] at hwithin
    refine ⟨(uses key after).getLastD t, (book_iff hp).mpr ?_, hwithin.2⟩
    exact ⟨t, after, ⟨⟨before, hsplit⟩, hrevoked⟩, hwithin.1, rfl⟩
  · intro ⟨last, hbook, hgap⟩
    obtain ⟨t, after, ⟨⟨before, hsplit⟩, hrevoked⟩, hwithin, hlast⟩ := (book_iff hp).mp hbook
    refine ⟨before, t, after, hsplit, hrevoked, within_concat.mpr ⟨hwithin, ?_⟩⟩
    rw [← hlast]
    exact hgap

/-- **Dead for good**: a key that was granted and is not alive at some time is
alive at no later one. -/
theorem dead_stays {window : Int} {h h' : History κ υ} (hp : Proper window (h ++ h')) {key : κ}
    {t now : Int} (hgranted : key ∈ h.filterMap grantOf)
    (hdead : ∀ holder, ¬ Live window h key holder t) (hlater : ∀ e ∈ h', t ≤ e.2) (hnow : t ≤ now) :
    ∀ holder, ¬ Live window (h ++ h') key holder now := by
  have hgap : ∀ holder last, book (h ++ h') key = some (holder, last) → window ≤ t - last := by
    induction h' using List.reverseRecOn with
    | nil =>
        intro holder last hbook
        rw [List.append_nil] at hbook hp
        by_contra hshort
        exact hdead holder ((live_iff hp).mpr ⟨last, hbook, by omega⟩)
    | append_singleton h' e ih =>
        rw [← List.append_assoc] at hp ⊢
        have hbefore := ih hp.left (fun e' he' => hlater e' (List.mem_append_left _ he'))
        intro holder last hbook
        rw [book_concat] at hbook
        by_cases hkey : e.1.key = key
        · obtain ⟨event, t'⟩ := e
          cases event with
          | granted k u =>
              -- A key is granted once.
              have hk : k = key := hkey
              have hnodup := hp.granted
              rw [List.filterMap_append, List.nodup_append] at hnodup
              refine absurd rfl (hnodup.2.2 key ?_ key ?_)
              · rw [List.filterMap_append]
                exact List.mem_append_left _ hgranted
              · rw [← hk]
                simp [grantOf]
          | used k =>
              -- A use is one of a grant that is alive.
              have hk : k = key := hkey
              obtain ⟨u, last', hbook', hgap⟩ := hp.used (h ++ h') k t' [] rfl
              rw [hk] at hbook'
              have hlong := hbefore u last' hbook'
              have hle : t ≤ t' := hlater (.used k, t') (by simp)
              omega
          | revoked k =>
              have hk : k = key := hkey
              rw [hk] at hbook
              change Function.update (book (h ++ h')) key none key = _ at hbook
              rw [Function.update_self] at hbook
              cases hbook
        · rw [note_apart hkey] at hbook
          exact hbefore holder last hbook
  intro holder hlive
  obtain ⟨last, hbook, hshort⟩ := (live_iff hp).mp hlive
  have hlong := hgap holder last hbook
  omega

end Sliding
