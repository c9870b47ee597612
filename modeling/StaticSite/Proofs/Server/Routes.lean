import Mathlib.Data.List.Nodup
import Mathlib.Tactic.SplitIfs
import StaticSite.Server.Site

namespace StaticSite.Server
open StaticSite.Page

theorem Router.literal_covers_iff {route path : List Char} :
    Router.literal.covers route path = true ↔ isLiteral route = true ∧ path = route := by
  rw [literal, Bool.and_eq_true, beq_iff_eq, eq_comm (a := route)]

theorem Router.lawful_literal : Router.literal.Lawful where
  accepts hplain hnodup := by
    rw [literal, Bool.and_eq_true, List.all_eq_true, decide_eq_true_iff]
    exact ⟨hplain, hnodup⟩
  covers_iff hplain := by rw [literal_covers_iff, and_iff_right hplain]
  ending h htail _ _ := by rwa [(literal_covers_iff.mp h).2]

namespace Site

variable {s : Site} {t : FileTree} {r : Request} {router : Router} {file : Path}

/-- No route takes a request, which leaves it to the source files. -/
def FallsBack (s : Site) (router : Router) (r : Request) : Prop :=
  ∀ route ∈ s.routes, router.covers route r.path = false

instance : Decidable (s.FallsBack router r) :=
  inferInstanceAs (Decidable (∀ route ∈ s.routes, _))

theorem mem_routes_iff {route : List Char} : route ∈ s.routes ↔
    route = s.spriteUrlPath ∨
      s.liveReload = true ∧ (route = socketPath ∨ route = clientPath) := by
  rw [routes, List.mem_cons]
  cases s.liveReload <;> simp

theorem serve_of_fallsBack (h : s.FallsBack router r) :
    s.serve t r router = s.serveSource t r.path := by
  have hsprite := h s.spriteUrlPath (mem_routes_iff.mpr (.inl rfl))
  have hsocket : ¬ (s.liveReload = true ∧ router.covers socketPath r.path = true) := by
    rintro ⟨hlive, hcovers⟩
    rw [h socketPath (mem_routes_iff.mpr (.inr ⟨hlive, .inl rfl⟩))] at hcovers
    cases hcovers
  have hclient : ¬ (s.liveReload = true ∧ router.covers clientPath r.path = true) := by
    rintro ⟨hlive, hcovers⟩
    rw [h clientPath (mem_routes_iff.mpr (.inr ⟨hlive, .inr rfl⟩))] at hcovers
    cases hcovers
  rw [serve, if_neg hsocket, if_neg hclient, hsprite, if_neg Bool.false_ne_true]

section page

variable (hfall : s.FallsBack router r) (hfile : fileOf? t s.sourceDir r.path = some file)
  (hpage : isPage file = true)
include hfall hfile hpage

theorem serve_page : s.serve t r router = s.servePage t file := by
  rw [serve_of_fallsBack hfall, serveSource, hfile]
  exact if_pos hpage

theorem respond_page {e : Expansion} (hget : r.method = "GET")
    (hexpand : expandFile t s.resolver file = .ok e) :
    s.respond t r router = Served.response ⟨pageMedia, .text (if s.liveReload then
      injectClient e.html clientPath s.spriteUrlPath else e.html)⟩ := by
  rw [respond, if_pos hget, get, serve_page hfall hfile hpage, servePage, hexpand]

theorem respond_page_error {e : ReadFailure} (hget : r.method = "GET")
    (hexpand : expandFile t s.resolver file = .error e) :
    s.respond t r router = ServeError.response (.page e) := by
  rw [respond, if_pos hget, get, serve_page hfall hfile hpage, servePage, hexpand]

end page

theorem fallsBack_iff (hrouter : router.Lawful)
    (hplain : ∀ route ∈ s.routes, isLiteral route = true) :
    s.FallsBack router r ↔ r.path ∉ s.routes := by
  constructor
  · intro h hmem
    have hcovers := (hrouter.covers_iff (hplain _ hmem)).mpr rfl
    rw [h _ hmem] at hcovers
    cases hcovers
  · intro h route hroute
    apply Bool.eq_false_iff.mpr
    intro hcovers
    have hpath := (hrouter.covers_iff (hplain route hroute)).mp hcovers
    exact h (hpath ▸ hroute)

theorem create?_eq_some_iff {respond : FileTree → Request → Response} :
    s.create? router = some respond ↔
      router.accepts s.routes = true ∧ respond = fun t r => s.respond t r router := by
  rw [create?]
  split_ifs with h
  · simp [h, eq_comm]
  · simp [h]

end Site

end StaticSite.Server
