import IrafCl.Grammar.First
import IrafCl.Script.Lexicon
import IrafCl.Tree.Node

/-!
# The grammar of the command language

The rules of CL, by groups. A program is a procedure with its parameter declarations and a body, or a
bare list of declarations and statements. The only ambiguity is the dangling `else`; the resolver for
it prefers the shorter rule, which leaves the `else` to the nearest `if`.
-/

namespace IrafCl.Script

/-- Rules that share a name. -/
def group (name : String) (rules : List (Symbol × List Symbol)) : List (Rule Symbol) :=
  rules.map fun (lhs, rhs) => ⟨lhs, rhs, name, true⟩

open Script.Symbol in
/-- The rules of CL. -/
def rules : List (Rule Symbol) :=
  group "program" [
    (program, [procStmt, paramDecls, bodyBlock]),
    (program, [localDecls, stmtList])] ++
  group "procedure" [
    (procStmt, [kwProcedure, ident, term]),
    (procStmt, [kwProcedure, ident, lparen, rparen, term]),
    (procStmt, [kwProcedure, ident, lparen, procArgs, rparen, term]),
    (procArgs, [ident]),
    (procArgs, [procArgs, comma, ident])] ++
  group "declarations" [
    (paramDecls, []),
    (paramDecls, [paramDecls, declStmt]),
    (localDecls, []),
    (localDecls, [localDecls, declStmt]),
    (declStmt, [typeName, declList, term]),
    (declList, [declSpec]),
    (declList, [declList, comma, declSpec]),
    (declSpec, [declVar]),
    (declSpec, [declVar, declOpts]),
    (declVar, [varName]),
    (declVar, [varName, equals, initList]),
    (varName, [ident]),
    (varName, [star, ident]),
    (varName, [ident, lbracket, integer, rbracket]),
    (initList, [initValue]),
    (initList, [initList, comma, initValue]),
    (initValue, [constant]),
    (initValue, [minus, constant]),
    (initValue, [plus, constant])] ++
  group "options" [
    (declOpts, [lbrace, optNl, rbrace]),
    (declOpts, [lbrace, optList, optNl, rbrace]),
    (optList, [optItem]),
    (optList, [optList, comma, optItem]),
    (optItem, [ident, equals, initValue]),
    (optItem, [initValue])] ++
  group "constant" [
    (constant, [integer]),
    (constant, [float]),
    (constant, [octal]),
    (constant, [hex]),
    (constant, [sexagesimal]),
    (constant, [string]),
    (constant, [bool]),
    (constant, [undefined])] ++
  group "body" [
    (bodyBlock, [kwBegin, optNl, localDecls, stmtList, kwEnd, optNl]),
    (stmtList, []),
    (stmtList, [stmtList, statement]),
    (term, [newline]),
    (term, [semi]),
    (optNl, []),
    (optNl, [newline])] ++
  group "statement" [
    (statement, [simpleStmt, term]),
    (statement, [block]),
    (statement, [ifStmt]),
    (statement, [whileStmt]),
    (statement, [forStmt]),
    (statement, [switchStmt]),
    (statement, [semi]),
    (statement, [ident, colon, optNl, statement]),
    (simpleStmt, [assignment]),
    (simpleStmt, [pipeline]),
    (simpleStmt, [kwBreak]),
    (simpleStmt, [kwNext]),
    (simpleStmt, [kwReturn]),
    (simpleStmt, [kwGoto, ident]),
    (block, [lbrace, stmtList, rbrace, optNl]),
    (block, [lbrace, stmtList, simpleStmt, rbrace, optNl])] ++
  group "control" [
    (ifStmt, [kwIf, lparen, expr, rparen, optNl, statement]),
    (ifStmt, [kwIf, lparen, expr, rparen, optNl, statement, kwElse, optNl, statement]),
    (whileStmt, [kwWhile, lparen, expr, rparen, optNl, statement]),
    (forStmt, [kwFor, lparen, optAssign, semi, optExpr, semi, optAssign, rparen, optNl, statement]),
    (optAssign, []),
    (optAssign, [assignment]),
    (optExpr, []),
    (optExpr, [expr]),
    (switchStmt, [kwSwitch, lparen, expr, rparen, optNl, lbrace, caseList, rbrace, optNl]),
    (caseList, [caseClause]),
    (caseList, [caseList, caseClause]),
    (caseClause, [kwCase, constList, colon, optNl, statement]),
    (caseClause, [kwDefault, colon, optNl, statement]),
    (constList, [initValue]),
    (constList, [constList, comma, initValue])] ++
  group "assignment" [
    (assignment, [lvalue, equals, expr]),
    (assignment, [lvalue, assignOp, expr]),
    (lvalue, [ident]),
    (lvalue, [ident, lbracket, exprList, rbracket])] ++
  group "task" [
    (pipeline, [taskCall]),
    (pipeline, [pipeline, pipe, taskCall]),
    (taskCall, [ident, lparen, rparen, redirs]),
    (taskCall, [ident, lparen, callArgs, rparen, redirs]),
    (taskCall, [ident, cmdArgs, redirs]),
    (cmdArgs, []),
    (cmdArgs, [cmdArgs, cmdArg]),
    (cmdArg, [constant]),
    (cmdArg, [cmdWord]),
    (cmdArg, [ident, equals, constant]),
    (cmdArg, [ident, equals, cmdWord]),
    (cmdArg, [ident, plus]),
    (cmdArg, [ident, minus]),
    (cmdWord, [ident]),
    (callArgs, [callArg]),
    (callArgs, [callArgs, comma, callArg]),
    (callArg, [expr]),
    (callArg, [ident, equals, expr]),
    (callArg, [ident, plus]),
    (callArg, [ident, minus]),
    (redirs, []),
    (redirs, [redirs, redir]),
    (redir, [gt, redirTarget]),
    (redir, [lt, redirTarget]),
    (redir, [redirOp, redirTarget]),
    (redirTarget, [string]),
    (redirTarget, [ident]),
    (redirTarget, [lparen, expr, rparen])] ++
  group "expression" [
    (expr, [orExpr]),
    (orExpr, [orExpr, orOr, andExpr]),
    (orExpr, [andExpr]),
    (andExpr, [andExpr, andAnd, cmpExpr]),
    (andExpr, [cmpExpr]),
    (cmpExpr, [concatExpr, eqEq, concatExpr]),
    (cmpExpr, [concatExpr, ne, concatExpr]),
    (cmpExpr, [concatExpr, lt, concatExpr]),
    (cmpExpr, [concatExpr, le, concatExpr]),
    (cmpExpr, [concatExpr, gt, concatExpr]),
    (cmpExpr, [concatExpr, ge, concatExpr]),
    (cmpExpr, [concatExpr]),
    (concatExpr, [concatExpr, concat, addExpr]),
    (concatExpr, [addExpr]),
    (addExpr, [addExpr, plus, mulExpr]),
    (addExpr, [addExpr, minus, mulExpr]),
    (addExpr, [mulExpr]),
    (mulExpr, [mulExpr, star, unary]),
    (mulExpr, [mulExpr, slash, unary]),
    (mulExpr, [mulExpr, percent, unary]),
    (mulExpr, [unary]),
    (unary, [minus, unary]),
    (unary, [plus, unary]),
    (unary, [not, unary]),
    (unary, [powExpr]),
    (powExpr, [primary, pow, unary]),
    (powExpr, [primary])] ++
  group "primary" [
    (primary, [constant]),
    (primary, [identRef]),
    (primary, [arrayRef]),
    (primary, [funcCall]),
    (primary, [parenExpr]),
    (identRef, [ident]),
    (arrayRef, [ident, lbracket, exprList, rbracket]),
    (exprList, [expr]),
    (exprList, [exprList, comma, expr]),
    (funcCall, [ident, lparen, rparen]),
    (funcCall, [ident, lparen, callArgs, rparen]),
    (funcCall, [typeName, lparen, callArgs, rparen]),
    (parenExpr, [lparen, expr, rparen])]

/-- The grammar of CL. -/
def grammar : Grammar Symbol := Grammar.ofRules .program rules

/-- The lookaheads of its rules. -/
def lookaheads : Lookaheads Symbol := grammar.lookaheads

/-- Parses the tokens of a script. -/
def parse (tokens : List (Token Symbol)) : Except Halt (Node Symbol) :=
  (grammar.parseWith lookaheads Resolver.shortestRule tokens).outcome.map Derivation.tree

/-- The syntax tree of a script. -/
def tree (source : Bytes) : Except Halt (Node Symbol) := do
  parse (← tokenize source)

end IrafCl.Script
