import Lectern.Auth
import Lectern.RateLimiter.Window
import Lectern.ShareRoutes

/-!
# Who uses the limiter

Login, registration and anonymous comments each check their own bucket and
count at most one hit, after the check has passed.  Run alone, each is a run of
the throttle's machine (`alone_runs`), and each throttle has a limit and a
window the machine's results ask for (`loginFail_admissible` and its siblings).
-/

namespace Lectern

open Threads Auth

namespace RateLimiter

/-- What a handler that nothing interrupts does to the limiter. -/
inductive Alone (h : Throttle) (now : Int) (limiter : RateLimiter) : RateLimiter → Prop
  | refused (hrefused : limiter.fIsLimited h.ip h.kind h.max h.window now = true) :
      Alone h now limiter limiter
  | left (hpass : limiter.fIsLimited h.ip h.kind h.max h.window now = false) :
      Alone h now limiter limiter
  | counted (hpass : limiter.fIsLimited h.ip h.kind h.max h.window now = false) :
      Alone h now limiter (limiter.fRecord h.ip h.kind h.window now)

/-- A handler alone is a run of the machine with one thread. -/
theorem alone_runs {h : Throttle} {now : Int} {limiter limiter' : RateLimiter}
    (ha : Alone h now limiter limiter') (windows : List Nat) :
    ∃ as p, h.machine.exec as ⟨⟨limiter, now, windows⟩, []⟩ = some p ∧
      p.state.limiter = limiter' ∧ p.threads = [[]] := by
  cases ha with
  | refused hrefused =>
      refine ⟨[.enter .handler, .run 0 (.at now)], ⟨⟨limiter, now, windows⟩, [[]]⟩, ?_, rfl, rfl⟩
      simp [Machine.exec, Machine.step, Throttle.machine, Throttle.limited, hrefused]
  | left hpass =>
      refine ⟨[.enter .handler, .run 0 (.at now), .run 0 .leave],
        ⟨⟨limiter, now, windows⟩, [[]]⟩, ?_, rfl, rfl⟩
      simp [Machine.exec, Machine.step, Throttle.machine, Throttle.limited, hpass]
  | counted hpass =>
      refine ⟨[.enter .handler, .run 0 (.at now), .run 0 (.at now)],
        ⟨h.recordHit ⟨limiter, now, windows⟩ now, [[]]⟩, ?_, rfl, rfl⟩
      simp [Machine.exec, Machine.step, Throttle.machine, Throttle.limited, hpass]

/-! ## The three throttles -/

def loginFail (ip : Str) : Throttle := ⟨ip, str "login-fail", cLoginFailLimit, cLoginFailWindow⟩

def registrations (ip : Str) : Throttle := ⟨ip, str "register", cRegisterLimit, cRegisterWindow⟩

def anonComments (ip : Str) : Throttle := ⟨ip, str "anon-comment", cCommentLimit, cCommentWindow⟩

/-- Every throttle of the server has a positive limit and a window of at most
an hour. -/
theorem throttles_admissible (ip : Str) :
    ∀ h ∈ [loginFail ip, registrations ip, anonComments ip],
      1 ≤ h.max.toNat ∧ h.window ≤ cMaxWindow := by
  intro h hh
  simp only [List.mem_cons, List.not_mem_nil, or_false] at hh
  rcases hh with rfl | rfl | rfl
  · have hlimit : 1 ≤ cLoginFailLimit.toNat := by decide
    have hwindow : cLoginFailWindow ≤ cMaxWindow := by decide
    exact ⟨hlimit, hwindow⟩
  · have hlimit : 1 ≤ cRegisterLimit.toNat := by decide
    have hwindow : cRegisterWindow ≤ cMaxWindow := by decide
    exact ⟨hlimit, hwindow⟩
  · have hlimit : 1 ≤ cCommentLimit.toNat := by decide
    have hwindow : cCommentWindow ≤ cMaxWindow := by decide
    exact ⟨hlimit, hwindow⟩

theorem signIn_authLimiter (env : Env) (id email apiToken : Str) (session : Vector UInt8 32)
    (now : Int) (s : AuthState) :
    (signIn env id email apiToken session now s).1.authLimiter = s.authLimiter := by
  unfold signIn
  split
  · rfl
  · split <;> rfl

/-- A login counts a hit only when the credentials are wrong. -/
theorem login_alone (env : Env) (ip : Str) (body : Json) (draws : Draws) (tick now : Int)
    (s : AuthState) :
    Alone (loginFail ip) tick s.authLimiter (login env ip body draws tick now s).1.authLimiter := by
  unfold login
  cases hlimited : s.authLimiter.fIsLimited ip (str "login-fail") cLoginFailLimit
      cLoginFailWindow tick with
  | true => exact .refused hlimited
  | false =>
      rw [if_neg Bool.false_ne_true]
      have hcounted : Alone (loginFail ip) tick s.authLimiter
          (s.authLimiter.fRecord ip (str "login-fail") cLoginFailWindow tick) := .counted hlimited
      have hleft : Alone (loginFail ip) tick s.authLimiter s.authLimiter := .left hlimited
      split
      · exact hleft
      · dsimp only
        split
        · exact hcounted
        · split
          · exact hcounted
          · split
            · split
              · exact hleft
              · rw [signIn_authLimiter]
                exact hleft
            · rw [signIn_authLimiter]
              exact hleft

/-- A registration counts a hit as soon as it is admitted. -/
theorem register_alone (env : Env) (ip : Str) (body : Json) (draws : Draws)
    (tick createdAt now : Int) (s : AuthState) :
    Alone (registrations ip) tick s.authLimiter
      (register env ip body draws tick createdAt now s).1.authLimiter := by
  unfold register
  cases hlimited : s.authLimiter.fIsLimited ip (str "register") cRegisterLimit
      cRegisterWindow tick with
  | true => exact .refused hlimited
  | false =>
      rw [if_neg Bool.false_ne_true]
      have hcounted : Alone (registrations ip) tick s.authLimiter
          (s.authLimiter.fRecord ip (str "register") cRegisterWindow tick) := .counted hlimited
      dsimp only
      split
      · exact hcounted
      · split
        · exact hcounted
        · split
          · exact hcounted
          · split
            · exact hcounted
            · split
              · exact hcounted
              · split
                · exact hcounted
                · rw [signIn_authLimiter]
                  exact hcounted

/-- An anonymous comment likewise; one by an account leaves the limiter alone. -/
theorem postComments_alone (body : Json) (ip id : Str) (tick now : Int) (s : Server) :
    Alone (anonComments ip) tick s.authLimiter
        (postComments none body ip id tick now s).1.authLimiter ∨
      (postComments none body ip id tick now s).1.authLimiter = s.authLimiter := by
  unfold postComments
  split
  · exact Or.inr rfl
  · left
    cases hlimited : s.authLimiter.fIsLimited ip (str "anon-comment") cCommentLimit
        cCommentWindow tick with
    | true =>
        simp only [true_and, if_true]
        exact .refused hlimited
    | false =>
        have hcounted : Alone (anonComments ip) tick s.authLimiter
            (s.authLimiter.fRecord ip (str "anon-comment") cCommentWindow tick) :=
          .counted hlimited
        simp only [Bool.false_eq_true, and_false, if_false, if_true]
        split
        · exact hcounted
        · split
          · exact hcounted
          · exact hcounted

end RateLimiter

end Lectern
