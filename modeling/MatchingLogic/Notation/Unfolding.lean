import MatchingLogic.Notation.Registry

namespace MatchingLogic

-- Every notation node also holds the unfolding of its one-level expansion, built from the template and the
-- unfoldings of the arguments, so that an argument is unfolded once however often the template repeats it.
-- The body of a notation is delayed, and a node that cannot be unfolded holds the reason.
inductive Unfolding where
  | symbol (name : String)
  | elementVar (id : UInt32)
  | setVar (id : UInt32)
  | metavar (id : UInt32)
  | app (left right : Unfolding)
  | imp (antecedent consequent : Unfolding)
  | ex (var : UInt32) (body : Unfolding)
  | mu (var : UInt32) (body : Unfolding)
  | sugar (name : String) (args : List Pattern) (body : Unit → Unfolding)
  | stuck (name : String) (args : List Pattern) (reason : ConversionError)

namespace Unfolding

def folded : Unfolding → Pattern
  | symbol name => .symbol name
  | elementVar id => .elementVar id
  | setVar id => .setVar id
  | metavar id => .metavar id
  | app l r => .app l.folded r.folded
  | imp a c => .imp a.folded c.folded
  | ex v b => .ex v b.folded
  | mu v b => .mu v b.folded
  | sugar name args _ => .sugar name args
  | stuck name args _ => .sugar name args

mutual

-- Unfolds a pattern in which metavariables stand for what `env` lists first for their ids, with `unfold` for
-- the notation nodes.
def ofPattern (unfold : String → List Unfolding → Unfolding) (env : List (UInt32 × Unfolding)) :
    Pattern → Unfolding
  | .symbol name => symbol name
  | .elementVar id => elementVar id
  | .setVar id => setVar id
  | .metavar id => (env.lookup id).getD (metavar id)
  | .app l r => app (ofPattern unfold env l) (ofPattern unfold env r)
  | .imp a c => imp (ofPattern unfold env a) (ofPattern unfold env c)
  | .ex v b => ex v (ofPattern unfold env b)
  | .mu v b => mu v (ofPattern unfold env b)
  | .sugar name args => unfold name (ofPatterns unfold env args)

def ofPatterns (unfold : String → List Unfolding → Unfolding) (env : List (UInt32 × Unfolding)) :
    List Pattern → List Unfolding
  | [] => []
  | p :: ps => ofPattern unfold env p :: ofPatterns unfold env ps

end

end Unfolding

namespace Notations

def unfoldNode (ns : Notations) : (depth : Nat) → String → List Unfolding → Unfolding
  | 0, name, args => .stuck name (args.map (·.folded)) (.endless name)
  | depth + 1, name, args =>
    let folded := args.map (·.folded)
    match ns.get? name with
    | none => .sugar name folded fun _ => args.foldl .app (.symbol name)
    | some n =>
      match n.checkArity folded with
      | .ok _ =>
        let env := (Substitution.numbered args).reverse
        .sugar name folded fun _ => .ofPattern (ns.unfoldNode depth) env n.template
      | .error e => .stuck name folded e

def unfolding (ns : Notations) (p : Pattern) : Unfolding :=
  .ofPattern (ns.unfoldNode (ns.size + 1)) [] p

end Notations
end MatchingLogic
