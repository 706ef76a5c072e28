import Lectern.RateLimiter
import Mathlib.Data.List.Nodup

/-!
# One bucket at a time

`fRecord` sweeps the whole map before it counts.  Seen from one key the sweep
is simple: a bucket older than the longest window is gone, any other is as it
was.  `bucket?_fRecord` says everything a hit does, key by key; the callers
never look at the map again.
-/

namespace Lectern

namespace RateLimiter

/-- A limiter that has counted nothing. -/
def empty : RateLimiter := ⟨[]⟩

/-- The map holds every key at most once. -/
def Keyed (limiter : RateLimiter) : Prop := (limiter.buckets.map Prod.fst).Nodup

theorem keyed_empty : empty.Keyed := List.nodup_nil

@[simp] theorem bucket?_empty (key : Str × Str) : empty.bucket? key = none := rfl

/-- Younger than the longest window, so a sweep leaves it alone. -/
def survives (now : Int) (bucket : Bucket) : Bool := now - bucket.start < cMaxWindow

/-- What a hit makes of the bucket it finds. -/
def hit (found : Option Bucket) (window now : Int) : Bucket :=
  let bucket := found.getD ⟨0, 0⟩
  let bucket := if bucket.count = 0 ∨ now - bucket.start ≥ window then ⟨0, now⟩ else bucket
  { bucket with count := bucket.count + 1 }

/-- Whether a hit starts a fresh window. -/
def opens (found : Option Bucket) (window now : Int) : Bool :=
  match found with
  | none => true
  | some bucket => bucket.count = 0 ∨ now - bucket.start ≥ window

theorem hit_of_opens {found : Option Bucket} {window now : Int}
    (h : opens found window now = true) : hit found window now = ⟨1, now⟩ := by
  cases found with
  | none => rfl
  | some bucket =>
      have hfresh : bucket.count = 0 ∨ now - bucket.start ≥ window := by simpa [opens] using h
      simp [hit, hfresh]

theorem hit_of_not_opens {bucket : Bucket} {window now : Int}
    (h : opens (some bucket) window now = false) :
    hit (some bucket) window now = ⟨bucket.count + 1, bucket.start⟩ := by
  have hsame : ¬ (bucket.count = 0 ∨ now - bucket.start ≥ window) := by simpa [opens] using h
  simp only [hit, Option.getD_some, if_neg hsame]

/-! ## The map -/

section Lookup

variable {α β : Type} [BEq α] [LawfulBEq α]

theorem lookup_filter_key {l : List (α × β)} {key : α} (q : α → Bool) (hq : q key = true) :
    (l.filter (fun entry => q entry.1)).lookup key = l.lookup key := by
  induction l with
  | nil => rfl
  | cons entry l ih =>
      obtain ⟨a, b⟩ := entry
      rw [List.filter_cons]
      by_cases ha : key = a
      · subst ha
        simp [hq]
      · have hne : (key == a) = false := by simpa using ha
        by_cases hqa : q a = true
        · simp [hqa, List.lookup_cons, hne, ih]
        · simp [hqa, List.lookup_cons, hne, ih]

theorem lookup_eq_none_of_not_mem {l : List (α × β)} {key : α} (h : key ∉ l.map Prod.fst) :
    l.lookup key = none := by
  induction l with
  | nil => rfl
  | cons entry l ih =>
      obtain ⟨a, b⟩ := entry
      rw [List.map_cons, List.mem_cons, not_or] at h
      have hne : (key == a) = false := by simpa using h.1
      rw [List.lookup_cons, hne]
      exact ih h.2

/-- Dropping entries by their value, where keys are not repeated. -/
theorem lookup_filter_value {l : List (α × β)} (hl : (l.map Prod.fst).Nodup) (key : α)
    (q : β → Bool) : (l.filter (fun entry => q entry.2)).lookup key = (l.lookup key).filter q := by
  induction l with
  | nil => rfl
  | cons entry l ih =>
      obtain ⟨a, b⟩ := entry
      rw [List.map_cons, List.nodup_cons] at hl
      have hrest := ih hl.2
      rw [List.filter_cons]
      by_cases ha : key = a
      · subst ha
        have hnone := lookup_eq_none_of_not_mem hl.1
        by_cases hqb : q b = true
        · simp [hqb, Option.filter]
        · simp [hqb, Option.filter, hrest, hnone]
      · have hne : (key == a) = false := by simpa using ha
        by_cases hqb : q b = true
        · simp [hqb, List.lookup_cons, hne, hrest]
        · simp [hqb, List.lookup_cons, hne, hrest]

end Lookup

theorem Keyed.filter {limiter : RateLimiter} (h : limiter.Keyed)
    (q : (Str × Str) × Bucket → Bool) : Keyed ⟨limiter.buckets.filter q⟩ :=
  h.sublist (List.filter_sublist.map Prod.fst)

/-- One key of a swept map. -/
theorem bucket?_sweep {limiter : RateLimiter} (h : limiter.Keyed) (now : Int) (key : Str × Str) :
    (limiter.sweep now).bucket? key = (limiter.bucket? key).filter (survives now) := by
  have hsweep : limiter.buckets.filter (fun entry => ¬ now - entry.2.start ≥ cMaxWindow) =
      limiter.buckets.filter (fun entry => survives now entry.2) := by
    apply List.filter_congr
    intro entry _
    simp [survives]
  unfold bucket? sweep
  rw [hsweep]
  exact lookup_filter_value h key (survives now)

theorem fRecord_eq (limiter : RateLimiter) (ip kind : Str) (window now : Int) :
    limiter.fRecord ip kind window now =
      ⟨((ip, kind), hit ((limiter.sweep now).bucket? (ip, kind)) window now) ::
        (limiter.sweep now).buckets.filter (fun entry => entry.1 ≠ (ip, kind))⟩ := rfl

theorem Keyed.fRecord {limiter : RateLimiter} (h : limiter.Keyed) (ip kind : Str)
    (window now : Int) : (limiter.fRecord ip kind window now).Keyed := by
  have hswept : (limiter.sweep now).Keyed := h.filter _
  rw [fRecord_eq]
  unfold Keyed
  rw [List.map_cons, List.nodup_cons]
  refine ⟨?_, hswept.filter _⟩
  intro hmem
  obtain ⟨entry, hentry, hkey⟩ := List.mem_map.mp hmem
  have hne := List.of_mem_filter hentry
  simp [hkey] at hne

/-- **What a hit does, key by key**: its own bucket counts it, every other one
stays unless it is too old. -/
theorem bucket?_fRecord {limiter : RateLimiter} (h : limiter.Keyed) (ip kind : Str)
    (window now : Int) (key : Str × Str) :
    (limiter.fRecord ip kind window now).bucket? key =
      if key = (ip, kind) then
        some (hit ((limiter.bucket? (ip, kind)).filter (survives now)) window now)
      else (limiter.bucket? key).filter (survives now) := by
  rw [fRecord_eq, bucket?_sweep h]
  by_cases hkey : key = (ip, kind)
  · rw [if_pos hkey, hkey]
    simp [bucket?]
  · have hne : (key == (ip, kind)) = false := by simpa using hkey
    have hkept := lookup_filter_key (l := (limiter.sweep now).buckets)
      (fun k => decide (k ≠ (ip, kind))) (by simpa using hkey)
    rw [if_neg hkey, ← bucket?_sweep h now key, bucket?, List.lookup_cons, hne]
    exact hkept

/-! ## The check -/

/-- The check reads one bucket. -/
def limited (found : Option Bucket) (max : UInt32) (window now : Int) : Bool :=
  match found with
  | none => false
  | some bucket => if now - bucket.start ≥ window then false else bucket.count ≥ max

theorem fIsLimited_eq (limiter : RateLimiter) (ip kind : Str) (max : UInt32) (window now : Int) :
    limiter.fIsLimited ip kind max window now =
      limited (limiter.bucket? (ip, kind)) max window now := rfl

theorem limited_eq_true_iff {found : Option Bucket} {max : UInt32} {window now : Int} :
    limited found max window now = true ↔
      ∃ bucket, found = some bucket ∧ now - bucket.start < window ∧ max ≤ bucket.count := by
  cases found with
  | none => simp [limited]
  | some bucket =>
      unfold limited
      by_cases hold : now - bucket.start ≥ window
      · have hlate : ¬ now - bucket.start < window := by omega
        simp [hold, hlate]
      · have hearly : now - bucket.start < window := by omega
        simp [hold, hearly]

end RateLimiter

end Lectern
