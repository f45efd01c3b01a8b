import PathExplorer.Program.Flow

namespace PathExplorer

structure Call where
  site : Stmt
  callee : Method
deriving DecidableEq

def Call.caller (c : Call) : Method := c.site.method

/-- What can be looked up in a program.  A lookup of control flow may fail; the calls are known. -/
structure View where
  flow : Method → Except Fault Flow
  /-- By site in the order of statements, the calls of one site in the order they were given. -/
  calls : List Call

namespace View

variable (v : View)

def callees (site : Stmt) : List Method := (v.calls.filter (·.site = site)).map (·.callee)

def callsFrom (m : Method) : List Call := v.calls.filter (·.caller = m)

def calleesOf (m : Method) : List Method := (v.callsFrom m).map (·.callee)

/-- The same program with the control flow of some methods missing; their calls stay known. -/
def hide (hidden : List Method) : View where
  flow m := if m ∈ hidden then .error (.methodNotFound m) else v.flow m
  calls := v.calls

variable {v}

theorem mem_callees {site : Stmt} {m : Method} :
    m ∈ v.callees site ↔ ⟨site, m⟩ ∈ v.calls := by
  simp only [callees, List.mem_map, List.mem_filter, decide_eq_true_eq]
  constructor
  · rintro ⟨c, ⟨hc, rfl⟩, rfl⟩
    exact hc
  · exact fun h => ⟨_, ⟨h, rfl⟩, rfl⟩

theorem mem_callsFrom {m : Method} {c : Call} :
    c ∈ v.callsFrom m ↔ c ∈ v.calls ∧ c.site.method = m := by
  rw [callsFrom, List.mem_filter, decide_eq_true_eq]
  rfl

end View

structure Program where
  names : List String
  flows : List Flow
  calls : List Call
  names_length : names.length = flows.length
  flow_method : ∀ i (h : i < flows.length), flows[i].method = ⟨i⟩
  flow_start : ∀ f ∈ flows, f.start = 0
  site_mem : ∀ c ∈ calls, ∃ f, flows[c.caller.index]? = some f ∧ c.site ∈ f
  callee_lt : ∀ c ∈ calls, c.callee.index < flows.length
  calls_nodup : calls.Nodup
  calls_sorted : calls.Pairwise (fun a b => (compare a.site b.site).isLE)

namespace Program

variable (p : Program)

def methodCount : Nat := p.flows.length

def callCount : Nat := p.calls.length

def flow (m : Method) : Except Fault Flow :=
  match p.flows[m.index]? with
  | some f => .ok f
  | none => .error (.methodNotFound m)

def view : View := ⟨p.flow, p.calls⟩

def name? (m : Method) : Option String := p.names[m.index]?

def named? (name : String) : Option Method := (p.names.findIdx? (· = name)).map Method.mk

end Program

end PathExplorer
