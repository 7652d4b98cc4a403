import ClassHooks.Hook.Script

/-!
Policies and their composition. At every site the policies of a chain run in the order in which
they were added, each with an emitter of its own. The names in a chain differ.
-/
namespace ClassHooks

structure Policy where
  name : String
  script : Site → Script

namespace Policy

def silent (name : String) : Policy := ⟨name, fun _ => .done⟩

/-- The hook for a site; constants added before a failure stay in the pool. -/
def emit (p : Policy) (site : Site) : PoolM Hook := fun pool =>
  match (p.script site).run ⟨pool, Emitter.start p.name site⟩ with
  | .error error s => .error error s.pool
  | .ok _ s =>
    match s.emitter.finish with
    | .ok hook => .ok hook s.pool
    | .error error => .error error s.pool

end Policy

structure Chain where
  policies : List Policy
  distinct : (policies.map Policy.name).Nodup

namespace Chain

def empty : Chain := ⟨[], List.nodup_nil⟩

def names (c : Chain) : List String := c.policies.map Policy.name

def isEmpty (c : Chain) : Bool := c.policies.isEmpty

def push (c : Chain) (p : Policy) : Except Error Chain :=
  if h : p.name ∈ c.names then .error (.hook p.name .duplicateName)
  else .ok {
    policies := c.policies ++ [p]
    distinct := by
      rw [List.map_append, List.nodup_append]
      refine ⟨c.distinct, by simp, fun a ha b hb => ?_⟩
      simp only [List.map_cons, List.map_nil, List.mem_singleton] at hb
      exact fun equal => h (hb ▸ equal ▸ ha) }

def emit (c : Chain) (site : Site) : PoolM Hook :=
  c.policies.foldlM (fun hook p => return hook.append (← p.emit site)) Hook.empty

end Chain
end ClassHooks
