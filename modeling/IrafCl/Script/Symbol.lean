import IrafCl.Token

/-!
# The symbols of the command language

The alphabet of the CL grammar: the kinds of syntax tree nodes, the kinds of tokens, and the two
reserved symbols.
-/

namespace IrafCl.Script

/-- A symbol of the CL grammar. -/
inductive Symbol where
  -- reserved
  | start | eof
  -- programs and declarations
  | program | procStmt | procArgs | paramDecls | localDecls | bodyBlock
  | declStmt | declList | declSpec | declVar | varName | initList | initValue | constant
  | declOpts | optList | optItem
  -- statements
  | stmtList | statement | simpleStmt | term | optNl | block
  | ifStmt | whileStmt | forStmt | optAssign | optExpr
  | switchStmt | caseList | caseClause | constList | assignment | lvalue
  -- tasks
  | pipeline | taskCall | cmdArgs | cmdArg | cmdWord | callArgs | callArg
  | redirs | redir | redirTarget
  -- expressions
  | expr | orExpr | andExpr | cmpExpr | concatExpr | addExpr | mulExpr | unary | powExpr
  | primary | identRef | arrayRef | exprList | funcCall | parenExpr
  -- words and constants
  | ident | typeName | integer | float | octal | hex | sexagesimal | string | bool | undefined
  | newline
  -- keywords
  | kwProcedure | kwBegin | kwEnd | kwIf | kwElse | kwWhile | kwFor | kwSwitch | kwCase
  | kwDefault | kwBreak | kwNext | kwReturn | kwGoto
  -- operators and brackets
  | eqEq | ne | le | ge | lt | gt | andAnd | orOr | not | assignOp | concat | pow
  | plus | minus | star | slash | percent
  | lparen | rparen | lbracket | rbracket | lbrace | rbrace
  | comma | semi | colon | equals | pipe | redirOp
  deriving DecidableEq, Repr

namespace Symbol

/-- The name of a symbol in grammars, token lists and tree dumps. -/
def name : Symbol → String
  | .start => "START"
  | .eof => "EOF"
  | .program => "program"
  | .procStmt => "proc_stmt"
  | .procArgs => "proc_args"
  | .paramDecls => "param_decls"
  | .localDecls => "local_decls"
  | .bodyBlock => "body_block"
  | .declStmt => "decl_stmt"
  | .declList => "decl_list"
  | .declSpec => "decl_spec"
  | .declVar => "decl_var"
  | .varName => "var_name"
  | .initList => "init_list"
  | .initValue => "init_value"
  | .constant => "constant"
  | .declOpts => "decl_opts"
  | .optList => "opt_list"
  | .optItem => "opt_item"
  | .stmtList => "stmt_list"
  | .statement => "statement"
  | .simpleStmt => "simple_stmt"
  | .term => "term"
  | .optNl => "opt_nl"
  | .block => "block"
  | .ifStmt => "if_stmt"
  | .whileStmt => "while_stmt"
  | .forStmt => "for_stmt"
  | .optAssign => "opt_assign"
  | .optExpr => "opt_expr"
  | .switchStmt => "switch_stmt"
  | .caseList => "case_list"
  | .caseClause => "case_clause"
  | .constList => "const_list"
  | .assignment => "assignment"
  | .lvalue => "lvalue"
  | .pipeline => "pipeline"
  | .taskCall => "task_call"
  | .cmdArgs => "cmd_args"
  | .cmdArg => "cmd_arg"
  | .cmdWord => "cmd_word"
  | .callArgs => "call_args"
  | .callArg => "call_arg"
  | .redirs => "redirs"
  | .redir => "redir"
  | .redirTarget => "redir_target"
  | .expr => "expr"
  | .orExpr => "or_expr"
  | .andExpr => "and_expr"
  | .cmpExpr => "cmp_expr"
  | .concatExpr => "concat_expr"
  | .addExpr => "add_expr"
  | .mulExpr => "mul_expr"
  | .unary => "unary"
  | .powExpr => "pow_expr"
  | .primary => "primary"
  | .identRef => "ident_ref"
  | .arrayRef => "array_ref"
  | .exprList => "expr_list"
  | .funcCall => "func_call"
  | .parenExpr => "paren_expr"
  | .ident => "IDENT"
  | .typeName => "TYPE"
  | .integer => "INTEGER"
  | .float => "FLOAT"
  | .octal => "OCTAL"
  | .hex => "HEX"
  | .sexagesimal => "SEXAGESIMAL"
  | .string => "STRING"
  | .bool => "BOOL"
  | .undefined => "INDEF"
  | .newline => "NEWLINE"
  | .kwProcedure => "PROCEDURE"
  | .kwBegin => "BEGIN"
  | .kwEnd => "END"
  | .kwIf => "IF"
  | .kwElse => "ELSE"
  | .kwWhile => "WHILE"
  | .kwFor => "FOR"
  | .kwSwitch => "SWITCH"
  | .kwCase => "CASE"
  | .kwDefault => "DEFAULT"
  | .kwBreak => "BREAK"
  | .kwNext => "NEXT"
  | .kwReturn => "RETURN"
  | .kwGoto => "GOTO"
  | .eqEq => "EQEQ"
  | .ne => "NE"
  | .le => "LE"
  | .ge => "GE"
  | .lt => "LT"
  | .gt => "GT"
  | .andAnd => "ANDAND"
  | .orOr => "OROR"
  | .not => "NOT"
  | .assignOp => "ASSIGNOP"
  | .concat => "CONCAT"
  | .pow => "POW"
  | .plus => "PLUS"
  | .minus => "MINUS"
  | .star => "STAR"
  | .slash => "SLASH"
  | .percent => "PERCENT"
  | .lparen => "LPAREN"
  | .rparen => "RPAREN"
  | .lbracket => "LBRACKET"
  | .rbracket => "RBRACKET"
  | .lbrace => "LBRACE"
  | .rbrace => "RBRACE"
  | .comma => "COMMA"
  | .semi => "SEMI"
  | .colon => "COLON"
  | .equals => "EQUALS"
  | .pipe => "PIPE"
  | .redirOp => "REDIR"

instance : Alphabet Symbol := ⟨name, .start, .eof⟩

end Symbol

end IrafCl.Script
