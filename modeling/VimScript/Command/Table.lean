import VimScript.Command

/-!
The commands an editor knows. A typed name belongs to the first command that accepts it, so the order of the
lists is the order in which abbreviations are settled.
-/

set_option autoImplicit false

namespace VimScript.Command

def fromAToC : List Command :=
  [⟨"append", 1, [.bang, .range, .zeror, .trlbar, .cmdwin, .modify], .append⟩,
    ⟨"abbreviate", 2, [.extra, .trlbar, .notrlcom, .usectrlv, .cmdwin], .common⟩,
    ⟨"abclear", 3, [.extra, .trlbar, .cmdwin], .common⟩,
    ⟨"aboveleft", 3, [.needarg, .extra, .notrlcom], .common⟩,
    ⟨"all", 2, [.bang, .range, .notadr, .count, .trlbar], .common⟩,
    ⟨"amenu", 2, [.range, .notadr, .zeror, .extra, .trlbar, .notrlcom, .usectrlv, .cmdwin], .common⟩,
    ⟨"anoremenu", 2, [.range, .notadr, .zeror, .extra, .trlbar, .notrlcom, .usectrlv, .cmdwin], .common⟩,
    ⟨"args", 2, [.bang, .files, .editcmd, .argopt, .trlbar], .common⟩,
    ⟨"argadd", 4, [.bang, .needarg, .range, .notadr, .zeror, .files, .trlbar], .common⟩,
    ⟨"argdelete", 4, [.bang, .range, .notadr, .files, .trlbar], .common⟩,
    ⟨"argedit", 4, [.bang, .needarg, .range, .notadr, .file1, .editcmd, .argopt, .trlbar], .common⟩,
    ⟨"argdo", 5, [.bang, .needarg, .extra, .notrlcom], .common⟩,
    ⟨"argglobal", 4, [.bang, .files, .editcmd, .argopt, .trlbar], .common⟩,
    ⟨"arglocal", 4, [.bang, .files, .editcmd, .argopt, .trlbar], .common⟩,
    ⟨"argument", 4, [.bang, .range, .notadr, .count, .extra, .editcmd, .argopt, .trlbar], .common⟩,
    ⟨"ascii", 2, [.trlbar, .sboxok, .cmdwin], .common⟩,
    ⟨"autocmd", 2, [.bang, .extra, .notrlcom, .usectrlv, .cmdwin], .common⟩,
    ⟨"augroup", 3, [.bang, .word1, .trlbar, .cmdwin], .common⟩,
    ⟨"aunmenu", 3, [.extra, .trlbar, .notrlcom, .usectrlv, .cmdwin], .common⟩,
    ⟨"buffer", 1, [.bang, .range, .notadr, .bufname, .bufunl, .count, .extra, .trlbar], .common⟩,
    ⟨"bNext", 2, [.bang, .range, .notadr, .count, .trlbar], .common⟩,
    ⟨"ball", 2, [.range, .notadr, .count, .trlbar], .common⟩,
    ⟨"badd", 3, [.needarg, .file1, .editcmd, .trlbar, .cmdwin], .common⟩,
    ⟨"bdelete", 2, [.bang, .range, .notadr, .bufname, .count, .extra, .trlbar], .common⟩,
    ⟨"behave", 2, [.needarg, .word1, .trlbar, .cmdwin], .common⟩,
    ⟨"belowright", 3, [.needarg, .extra, .notrlcom], .common⟩,
    ⟨"bfirst", 2, [.bang, .range, .notadr, .trlbar], .common⟩,
    ⟨"blast", 2, [.bang, .range, .notadr, .trlbar], .common⟩,
    ⟨"bmodified", 2, [.bang, .range, .notadr, .count, .trlbar], .common⟩,
    ⟨"bnext", 2, [.bang, .range, .notadr, .count, .trlbar], .common⟩,
    ⟨"botright", 2, [.needarg, .extra, .notrlcom], .common⟩,
    ⟨"bprevious", 2, [.bang, .range, .notadr, .count, .trlbar], .common⟩,
    ⟨"brewind", 2, [.bang, .range, .notadr, .trlbar], .common⟩,
    ⟨"break", 4, [.trlbar, .sboxok, .cmdwin], .jump .leave⟩,
    ⟨"breakadd", 6, [.extra, .trlbar, .cmdwin], .common⟩,
    ⟨"breakdel", 6, [.extra, .trlbar, .cmdwin], .common⟩,
    ⟨"breaklist", 6, [.extra, .trlbar, .cmdwin], .common⟩,
    ⟨"browse", 3, [.needarg, .extra, .notrlcom, .cmdwin], .common⟩,
    ⟨"bufdo", 5, [.bang, .needarg, .extra, .notrlcom], .common⟩,
    ⟨"buffers", 7, [.bang, .trlbar, .cmdwin], .common⟩,
    ⟨"bunload", 3, [.bang, .range, .notadr, .bufname, .count, .extra, .trlbar], .common⟩,
    ⟨"bwipeout", 2, [.bang, .range, .notadr, .bufname, .bufunl, .count, .extra, .trlbar], .common⟩,
    ⟨"change", 1, [.bang, .wholefold, .range, .count, .trlbar, .cmdwin, .modify], .common⟩,
    ⟨"cNext", 2, [.range, .notadr, .count, .trlbar, .bang], .common⟩,
    ⟨"cNfile", 3, [.range, .notadr, .count, .trlbar, .bang], .common⟩,
    ⟨"cabbrev", 2, [.extra, .trlbar, .notrlcom, .usectrlv, .cmdwin], .common⟩,
    ⟨"cabclear", 4, [.extra, .trlbar, .cmdwin], .common⟩,
    ⟨"caddbuffer", 3, [.range, .notadr, .word1, .trlbar], .common⟩,
    ⟨"caddexpr", 5, [.needarg, .word1, .notrlcom, .trlbar], .common⟩,
    ⟨"caddfile", 5, [.trlbar, .file1], .common⟩,
    ⟨"call", 3, [.range, .needarg, .extra, .notrlcom, .sboxok, .cmdwin], .call⟩,
    ⟨"catch", 3, [.extra, .sboxok, .cmdwin], .catchBranch⟩,
    ⟨"cbuffer", 2, [.bang, .range, .notadr, .word1, .trlbar], .common⟩,
    ⟨"cc", 2, [.range, .notadr, .count, .trlbar, .bang], .common⟩,
    ⟨"cclose", 3, [.range, .notadr, .count, .trlbar], .common⟩,
    ⟨"cd", 2, [.bang, .file1, .trlbar, .cmdwin], .common⟩,
    ⟨"center", 2, [.trlbar, .range, .wholefold, .extra, .cmdwin, .modify], .common⟩,
    ⟨"cexpr", 3, [.needarg, .word1, .notrlcom, .trlbar, .bang], .common⟩,
    ⟨"cfile", 2, [.trlbar, .file1, .bang], .common⟩,
    ⟨"cfirst", 4, [.range, .notadr, .count, .trlbar, .bang], .common⟩,
    ⟨"cgetbuffer", 5, [.range, .notadr, .word1, .trlbar], .common⟩,
    ⟨"cgetexpr", 5, [.needarg, .word1, .notrlcom, .trlbar], .common⟩,
    ⟨"cgetfile", 2, [.trlbar, .file1], .common⟩,
    ⟨"changes", 7, [.trlbar, .cmdwin], .common⟩,
    ⟨"chdir", 3, [.bang, .file1, .trlbar, .cmdwin], .common⟩,
    ⟨"checkpath", 3, [.trlbar, .bang, .cmdwin], .common⟩,
    ⟨"checktime", 6, [.range, .notadr, .bufname, .count, .extra, .trlbar], .common⟩,
    ⟨"clist", 2, [.bang, .extra, .trlbar, .cmdwin], .common⟩,
    ⟨"clast", 3, [.range, .notadr, .count, .trlbar, .bang], .common⟩,
    ⟨"close", 3, [.bang, .trlbar, .cmdwin], .common⟩,
    ⟨"cmap", 2, [.extra, .trlbar, .notrlcom, .usectrlv, .cmdwin], .common⟩,
    ⟨"cmapclear", 5, [.extra, .trlbar, .cmdwin], .common⟩,
    ⟨"cmenu", 3, [.range, .notadr, .zeror, .extra, .trlbar, .notrlcom, .usectrlv, .cmdwin], .common⟩,
    ⟨"cnext", 2, [.range, .notadr, .count, .trlbar, .bang], .common⟩,
    ⟨"cnewer", 4, [.range, .notadr, .count, .trlbar], .common⟩,
    ⟨"cnfile", 3, [.range, .notadr, .count, .trlbar, .bang], .common⟩,
    ⟨"cnoremap", 3, [.extra, .trlbar, .notrlcom, .usectrlv, .cmdwin], .common⟩,
    ⟨"cnoreabbrev", 6, [.extra, .trlbar, .notrlcom, .usectrlv, .cmdwin], .common⟩,
    ⟨"cnoremenu", 7, [.range, .notadr, .zeror, .extra, .trlbar, .notrlcom, .usectrlv, .cmdwin], .common⟩,
    ⟨"copy", 2, [.range, .wholefold, .extra, .trlbar, .cmdwin, .modify], .common⟩,
    ⟨"colder", 3, [.range, .notadr, .count, .trlbar], .common⟩,
    ⟨"colorscheme", 4, [.word1, .trlbar, .cmdwin], .common⟩,
    ⟨"command", 3, [.extra, .bang, .notrlcom, .usectrlv, .cmdwin], .common⟩,
    ⟨"comclear", 4, [.trlbar, .cmdwin], .common⟩,
    ⟨"compiler", 4, [.bang, .trlbar, .word1, .cmdwin], .common⟩,
    ⟨"continue", 3, [.trlbar, .sboxok, .cmdwin], .jump .restart⟩,
    ⟨"confirm", 4, [.needarg, .extra, .notrlcom, .cmdwin], .common⟩,
    ⟨"copen", 4, [.range, .notadr, .count, .trlbar], .common⟩,
    ⟨"cprevious", 2, [.range, .notadr, .count, .trlbar, .bang], .common⟩,
    ⟨"cpfile", 3, [.range, .notadr, .count, .trlbar, .bang], .common⟩,
    ⟨"cquit", 2, [.trlbar, .bang], .common⟩,
    ⟨"crewind", 2, [.range, .notadr, .count, .trlbar, .bang], .common⟩,
    ⟨"cscope", 2, [.extra, .notrlcom, .xfile], .common⟩,
    ⟨"cstag", 3, [.bang, .trlbar, .word1], .common⟩,
    ⟨"cunmap", 2, [.extra, .trlbar, .notrlcom, .usectrlv, .cmdwin], .common⟩,
    ⟨"cunabbrev", 4, [.extra, .trlbar, .notrlcom, .usectrlv, .cmdwin], .common⟩,
    ⟨"cunmenu", 5, [.extra, .trlbar, .notrlcom, .usectrlv, .cmdwin], .common⟩,
    ⟨"cwindow", 2, [.range, .notadr, .count, .trlbar], .common⟩]

def fromDToL : List Command :=
  [⟨"delete", 1, [.range, .wholefold, .regstr, .count, .trlbar, .cmdwin, .modify], .common⟩,
    ⟨"delmarks", 4, [.bang, .extra, .trlbar, .cmdwin], .common⟩,
    ⟨"debug", 3, [.needarg, .extra, .notrlcom, .sboxok, .cmdwin], .common⟩,
    ⟨"debuggreedy", 6, [.range, .notadr, .zeror, .trlbar, .cmdwin], .common⟩,
    ⟨"delcommand", 4, [.needarg, .word1, .trlbar, .cmdwin], .common⟩,
    ⟨"delfunction", 4, [.bang, .needarg, .word1, .cmdwin], .delFunction⟩,
    ⟨"diffupdate", 3, [.bang, .trlbar], .common⟩,
    ⟨"diffget", 5, [.range, .extra, .trlbar, .modify], .common⟩,
    ⟨"diffoff", 5, [.bang, .trlbar], .common⟩,
    ⟨"diffpatch", 5, [.extra, .file1, .trlbar, .modify], .common⟩,
    ⟨"diffput", 6, [.range, .extra, .trlbar], .common⟩,
    ⟨"diffsplit", 5, [.extra, .file1, .trlbar], .common⟩,
    ⟨"diffthis", 5, [.trlbar], .common⟩,
    ⟨"digraphs", 3, [.extra, .trlbar, .cmdwin], .common⟩,
    ⟨"display", 2, [.extra, .notrlcom, .trlbar, .sboxok, .cmdwin], .common⟩,
    ⟨"djump", 2, [.bang, .range, .dflall, .wholefold, .extra], .common⟩,
    ⟨"dlist", 2, [.bang, .range, .dflall, .wholefold, .extra, .cmdwin], .common⟩,
    ⟨"doautocmd", 2, [.extra, .trlbar, .cmdwin], .common⟩,
    ⟨"doautoall", 7, [.extra, .trlbar, .cmdwin], .common⟩,
    ⟨"drop", 2, [.files, .editcmd, .needarg, .argopt, .trlbar], .common⟩,
    ⟨"dsearch", 2, [.bang, .range, .dflall, .wholefold, .extra, .cmdwin], .common⟩,
    ⟨"dsplit", 3, [.bang, .range, .dflall, .wholefold, .extra], .common⟩,
    ⟨"edit", 1, [.bang, .file1, .editcmd, .argopt, .trlbar], .common⟩,
    ⟨"earlier", 2, [.trlbar, .extra, .nospc, .cmdwin], .common⟩,
    ⟨"echo", 2, [.extra, .notrlcom, .sboxok, .cmdwin], .echo .echo⟩,
    ⟨"echoerr", 5, [.extra, .notrlcom, .sboxok, .cmdwin], .echo .echoErr⟩,
    ⟨"echohl", 5, [.extra, .trlbar, .sboxok, .cmdwin], .echoHl⟩,
    ⟨"echomsg", 5, [.extra, .notrlcom, .sboxok, .cmdwin], .echo .echoMsg⟩,
    ⟨"echon", 5, [.extra, .notrlcom, .sboxok, .cmdwin], .echo .echon⟩,
    ⟨"else", 2, [.trlbar, .sboxok, .cmdwin], .elseBranch⟩,
    ⟨"elseif", 5, [.extra, .notrlcom, .sboxok, .cmdwin], .elseIf⟩,
    ⟨"emenu", 2, [.needarg, .extra, .trlbar, .notrlcom, .range, .notadr, .cmdwin], .common⟩,
    ⟨"endif", 2, [.trlbar, .sboxok, .cmdwin], .closer .ifBlock⟩,
    ⟨"endfor", 5, [.trlbar, .sboxok, .cmdwin], .closer .forLoop⟩,
    ⟨"endfunction", 4, [.trlbar, .cmdwin], .closer .function⟩,
    ⟨"endtry", 4, [.trlbar, .sboxok, .cmdwin], .closer .tryBlock⟩,
    ⟨"endwhile", 4, [.trlbar, .sboxok, .cmdwin], .closer .whileLoop⟩,
    ⟨"enew", 3, [.bang, .trlbar], .common⟩,
    ⟨"eval", 2, [.extra, .notrlcom, .sboxok, .cmdwin], .eval⟩,
    ⟨"ex", 2, [.bang, .file1, .editcmd, .argopt, .trlbar], .common⟩,
    ⟨"execute", 3, [.extra, .notrlcom, .sboxok, .cmdwin], .echo .execute⟩,
    ⟨"exit", 3, [.range, .wholefold, .bang, .file1, .argopt, .dflall, .trlbar, .cmdwin], .common⟩,
    ⟨"exusage", 3, [.trlbar], .common⟩,
    ⟨"file", 1, [.range, .notadr, .zeror, .bang, .file1, .trlbar], .common⟩,
    ⟨"files", 5, [.bang, .trlbar, .cmdwin], .common⟩,
    ⟨"filetype", 5, [.extra, .trlbar, .cmdwin], .common⟩,
    ⟨"find", 3, [.range, .notadr, .bang, .file1, .editcmd, .argopt, .trlbar], .common⟩,
    ⟨"finally", 4, [.trlbar, .sboxok, .cmdwin], .finallyBranch⟩,
    ⟨"finish", 4, [.trlbar, .sboxok, .cmdwin], .finish⟩,
    ⟨"first", 3, [.extra, .bang, .editcmd, .argopt, .trlbar], .common⟩,
    ⟨"fixdel", 3, [.trlbar, .cmdwin], .common⟩,
    ⟨"fold", 2, [.range, .wholefold, .trlbar, .sboxok, .cmdwin], .common⟩,
    ⟨"foldclose", 5, [.range, .bang, .wholefold, .trlbar, .sboxok, .cmdwin], .common⟩,
    ⟨"folddoopen", 5, [.range, .dflall, .needarg, .extra, .notrlcom], .common⟩,
    ⟨"folddoclosed", 7, [.range, .dflall, .needarg, .extra, .notrlcom], .common⟩,
    ⟨"foldopen", 5, [.range, .bang, .wholefold, .trlbar, .sboxok, .cmdwin], .common⟩,
    ⟨"for", 3, [.extra, .notrlcom, .sboxok, .cmdwin], .opener .forLoop⟩,
    ⟨"function", 2, [.extra, .bang, .cmdwin], .opener .function⟩,
    ⟨"global", 1, [.range, .wholefold, .bang, .extra, .dflall, .sboxok, .cmdwin], .common⟩,
    ⟨"goto", 2, [.range, .notadr, .count, .trlbar, .sboxok, .cmdwin], .common⟩,
    ⟨"grep", 2, [.range, .notadr, .bang, .needarg, .extra, .notrlcom, .trlbar, .xfile], .common⟩,
    ⟨"grepadd", 5, [.range, .notadr, .bang, .needarg, .extra, .notrlcom, .trlbar, .xfile], .common⟩,
    ⟨"gui", 2, [.bang, .files, .editcmd, .argopt, .trlbar, .cmdwin], .common⟩,
    ⟨"gvim", 2, [.bang, .files, .editcmd, .argopt, .trlbar, .cmdwin], .common⟩,
    ⟨"hardcopy", 2, [.range, .count, .extra, .trlbar, .dflall, .bang], .common⟩,
    ⟨"help", 1, [.bang, .extra, .notrlcom], .common⟩,
    ⟨"helpfind", 5, [.extra, .notrlcom], .common⟩,
    ⟨"helpgrep", 5, [.extra, .notrlcom, .needarg], .common⟩,
    ⟨"helptags", 5, [.needarg, .files, .trlbar, .cmdwin], .common⟩,
    ⟨"highlight", 2, [.bang, .extra, .trlbar, .sboxok, .cmdwin], .common⟩,
    ⟨"hide", 3, [.bang, .extra, .notrlcom], .common⟩,
    ⟨"history", 3, [.extra, .trlbar, .cmdwin], .common⟩,
    ⟨"insert", 1, [.bang, .range, .trlbar, .cmdwin, .modify], .insert⟩,
    ⟨"iabbrev", 2, [.extra, .trlbar, .notrlcom, .usectrlv, .cmdwin], .common⟩,
    ⟨"iabclear", 4, [.extra, .trlbar, .cmdwin], .common⟩,
    ⟨"if", 2, [.extra, .notrlcom, .sboxok, .cmdwin], .opener .ifBlock⟩,
    ⟨"ijump", 2, [.bang, .range, .dflall, .wholefold, .extra], .common⟩,
    ⟨"ilist", 2, [.bang, .range, .dflall, .wholefold, .extra, .cmdwin], .common⟩,
    ⟨"imap", 2, [.extra, .trlbar, .notrlcom, .usectrlv, .cmdwin], .common⟩,
    ⟨"imapclear", 5, [.extra, .trlbar, .cmdwin], .common⟩,
    ⟨"imenu", 3, [.range, .notadr, .zeror, .extra, .trlbar, .notrlcom, .usectrlv, .cmdwin], .common⟩,
    ⟨"inoremap", 3, [.extra, .trlbar, .notrlcom, .usectrlv, .cmdwin], .common⟩,
    ⟨"inoreabbrev", 6, [.extra, .trlbar, .notrlcom, .usectrlv, .cmdwin], .common⟩,
    ⟨"inoremenu", 7, [.range, .notadr, .zeror, .extra, .trlbar, .notrlcom, .usectrlv, .cmdwin], .common⟩,
    ⟨"intro", 3, [.trlbar, .cmdwin], .common⟩,
    ⟨"isearch", 2, [.bang, .range, .dflall, .wholefold, .extra, .cmdwin], .common⟩,
    ⟨"isplit", 3, [.bang, .range, .dflall, .wholefold, .extra], .common⟩,
    ⟨"iunmap", 2, [.extra, .trlbar, .notrlcom, .usectrlv, .cmdwin], .common⟩,
    ⟨"iunabbrev", 4, [.extra, .trlbar, .notrlcom, .usectrlv, .cmdwin], .common⟩,
    ⟨"iunmenu", 5, [.extra, .trlbar, .notrlcom, .usectrlv, .cmdwin], .common⟩,
    ⟨"join", 1, [.bang, .range, .wholefold, .count, .exflags, .trlbar, .cmdwin, .modify], .common⟩,
    ⟨"jumps", 2, [.trlbar, .cmdwin], .common⟩,
    ⟨"k", 1, [.range, .word1, .trlbar, .sboxok, .cmdwin], .common⟩,
    ⟨"keepalt", 5, [.needarg, .extra, .notrlcom], .common⟩,
    ⟨"keepmarks", 3, [.needarg, .extra, .notrlcom], .common⟩,
    ⟨"keepjumps", 5, [.needarg, .extra, .notrlcom], .common⟩,
    ⟨"keeppatterns", 5, [.needarg, .extra, .notrlcom], .common⟩,
    ⟨"lNext", 2, [.range, .notadr, .count, .trlbar, .bang], .common⟩,
    ⟨"lNfile", 3, [.range, .notadr, .count, .trlbar, .bang], .common⟩,
    ⟨"list", 1, [.range, .wholefold, .count, .exflags, .trlbar, .cmdwin], .common⟩,
    ⟨"laddexpr", 3, [.needarg, .word1, .notrlcom, .trlbar], .common⟩,
    ⟨"laddbuffer", 5, [.range, .notadr, .word1, .trlbar], .common⟩,
    ⟨"laddfile", 5, [.trlbar, .file1], .common⟩,
    ⟨"last", 2, [.extra, .bang, .editcmd, .argopt, .trlbar], .common⟩,
    ⟨"language", 3, [.extra, .trlbar, .cmdwin], .common⟩,
    ⟨"later", 3, [.trlbar, .extra, .nospc, .cmdwin], .common⟩,
    ⟨"lbuffer", 2, [.bang, .range, .notadr, .word1, .trlbar], .common⟩,
    ⟨"lcd", 2, [.bang, .file1, .trlbar, .cmdwin], .common⟩,
    ⟨"lchdir", 3, [.bang, .file1, .trlbar, .cmdwin], .common⟩,
    ⟨"lclose", 3, [.range, .notadr, .count, .trlbar], .common⟩,
    ⟨"lcscope", 3, [.extra, .notrlcom, .xfile], .common⟩,
    ⟨"left", 2, [.trlbar, .range, .wholefold, .extra, .cmdwin, .modify], .common⟩,
    ⟨"leftabove", 5, [.needarg, .extra, .notrlcom], .common⟩,
    ⟨"let", 3, [.extra, .notrlcom, .sboxok, .cmdwin], .assign .letVar⟩,
    ⟨"const", 4, [.extra, .notrlcom, .sboxok, .cmdwin], .assign .const⟩,
    ⟨"lexpr", 3, [.needarg, .word1, .notrlcom, .trlbar, .bang], .common⟩,
    ⟨"lfile", 2, [.trlbar, .file1, .bang], .common⟩,
    ⟨"lfirst", 4, [.range, .notadr, .count, .trlbar, .bang], .common⟩,
    ⟨"lgetbuffer", 5, [.range, .notadr, .word1, .trlbar], .common⟩,
    ⟨"lgetexpr", 5, [.needarg, .word1, .notrlcom, .trlbar], .common⟩,
    ⟨"lgetfile", 2, [.trlbar, .file1], .common⟩,
    ⟨"lgrep", 3, [.range, .notadr, .bang, .needarg, .extra, .notrlcom, .trlbar, .xfile], .common⟩,
    ⟨"lgrepadd", 6, [.range, .notadr, .bang, .needarg, .extra, .notrlcom, .trlbar, .xfile], .common⟩,
    ⟨"lhelpgrep", 2, [.extra, .notrlcom, .needarg], .common⟩,
    ⟨"ll", 2, [.range, .notadr, .count, .trlbar, .bang], .common⟩,
    ⟨"llast", 3, [.range, .notadr, .count, .trlbar, .bang], .common⟩,
    ⟨"llist", 3, [.bang, .extra, .trlbar, .cmdwin], .common⟩,
    ⟨"lmake", 4, [.bang, .extra, .notrlcom, .trlbar, .xfile], .common⟩,
    ⟨"lmap", 2, [.extra, .trlbar, .notrlcom, .usectrlv, .cmdwin], .common⟩,
    ⟨"lmapclear", 5, [.extra, .trlbar, .cmdwin], .common⟩,
    ⟨"lnext", 3, [.range, .notadr, .count, .trlbar, .bang], .common⟩,
    ⟨"lnewer", 4, [.range, .notadr, .count, .trlbar], .common⟩,
    ⟨"lnfile", 3, [.range, .notadr, .count, .trlbar, .bang], .common⟩,
    ⟨"lnoremap", 2, [.extra, .trlbar, .notrlcom, .usectrlv, .cmdwin], .common⟩,
    ⟨"loadkeymap", 5, [.cmdwin], .loadKeymap⟩,
    ⟨"loadview", 2, [.file1, .trlbar], .common⟩,
    ⟨"lockmarks", 3, [.needarg, .extra, .notrlcom], .common⟩,
    ⟨"lockvar", 5, [.bang, .extra, .needarg, .sboxok, .cmdwin], .lock .lock⟩,
    ⟨"lolder", 3, [.range, .notadr, .count, .trlbar], .common⟩,
    ⟨"lopen", 3, [.range, .notadr, .count, .trlbar], .common⟩,
    ⟨"lprevious", 2, [.range, .notadr, .count, .trlbar, .bang], .common⟩,
    ⟨"lpfile", 3, [.range, .notadr, .count, .trlbar, .bang], .common⟩,
    ⟨"lrewind", 2, [.range, .notadr, .count, .trlbar, .bang], .common⟩,
    ⟨"ls", 2, [.bang, .trlbar, .cmdwin], .common⟩,
    ⟨"ltag", 2, [.notadr, .trlbar, .bang, .word1], .common⟩,
    ⟨"lunmap", 2, [.extra, .trlbar, .notrlcom, .usectrlv, .cmdwin], .common⟩,
    ⟨"lua", 3, [.range, .extra, .needarg, .cmdwin], .foreign .lua⟩,
    ⟨"luado", 4, [.range, .dflall, .extra, .needarg, .cmdwin], .common⟩,
    ⟨"luafile", 4, [.range, .file1, .needarg, .cmdwin], .common⟩,
    ⟨"lvimgrep", 2, [.range, .notadr, .bang, .needarg, .extra, .notrlcom, .trlbar, .xfile], .common⟩,
    ⟨"lvimgrepadd", 9, [.range, .notadr, .bang, .needarg, .extra, .notrlcom, .trlbar, .xfile], .common⟩,
    ⟨"lwindow", 2, [.range, .notadr, .count, .trlbar], .common⟩]

def fromMToR : List Command :=
  [⟨"move", 1, [.range, .wholefold, .extra, .trlbar, .cmdwin, .modify], .common⟩,
    ⟨"mark", 2, [.range, .word1, .trlbar, .sboxok, .cmdwin], .common⟩,
    ⟨"make", 3, [.bang, .extra, .notrlcom, .trlbar, .xfile], .common⟩,
    ⟨"map", 3, [.bang, .extra, .trlbar, .notrlcom, .usectrlv, .cmdwin], .common⟩,
    ⟨"mapclear", 4, [.extra, .bang, .trlbar, .cmdwin], .common⟩,
    ⟨"marks", 5, [.extra, .trlbar, .cmdwin], .common⟩,
    ⟨"match", 3, [.range, .notadr, .extra, .cmdwin], .common⟩,
    ⟨"menu", 2, [.range, .notadr, .zeror, .bang, .extra, .trlbar, .notrlcom, .usectrlv, .cmdwin], .common⟩,
    ⟨"menutranslate", 5, [.extra, .trlbar, .notrlcom, .usectrlv, .cmdwin], .common⟩,
    ⟨"messages", 3, [.trlbar, .cmdwin], .common⟩,
    ⟨"mkexrc", 2, [.bang, .file1, .trlbar, .cmdwin], .common⟩,
    ⟨"mksession", 3, [.bang, .file1, .trlbar], .common⟩,
    ⟨"mkspell", 4, [.bang, .needarg, .extra, .notrlcom, .trlbar, .xfile], .common⟩,
    ⟨"mkvimrc", 3, [.bang, .file1, .trlbar, .cmdwin], .common⟩,
    ⟨"mkview", 5, [.bang, .file1, .trlbar], .common⟩,
    ⟨"mode", 3, [.word1, .trlbar, .cmdwin], .common⟩,
    ⟨"mzscheme", 2, [.range, .extra, .dflall, .needarg, .cmdwin, .sboxok], .foreign .mzscheme⟩,
    ⟨"mzfile", 3, [.range, .file1, .needarg, .cmdwin], .common⟩,
    ⟨"nbclose", 3, [.trlbar, .cmdwin], .common⟩,
    ⟨"nbkey", 2, [.extra, .notadr, .needarg], .common⟩,
    ⟨"nbstart", 3, [.word1, .trlbar, .cmdwin], .common⟩,
    ⟨"next", 1, [.range, .notadr, .bang, .files, .editcmd, .argopt, .trlbar], .common⟩,
    ⟨"new", 3, [.bang, .file1, .range, .notadr, .editcmd, .argopt, .trlbar], .common⟩,
    ⟨"nmap", 2, [.extra, .trlbar, .notrlcom, .usectrlv, .cmdwin], .common⟩,
    ⟨"nmapclear", 5, [.extra, .trlbar, .cmdwin], .common⟩,
    ⟨"nmenu", 3, [.range, .notadr, .zeror, .extra, .trlbar, .notrlcom, .usectrlv, .cmdwin], .common⟩,
    ⟨"nnoremap", 2, [.extra, .trlbar, .notrlcom, .usectrlv, .cmdwin], .common⟩,
    ⟨"nnoremenu", 7, [.range, .notadr, .zeror, .extra, .trlbar, .notrlcom, .usectrlv, .cmdwin], .common⟩,
    ⟨"noautocmd", 3, [.needarg, .extra, .notrlcom], .common⟩,
    ⟨"noremap", 2, [.bang, .extra, .trlbar, .notrlcom, .usectrlv, .cmdwin], .common⟩,
    ⟨"nohlsearch", 3, [.trlbar, .sboxok, .cmdwin], .common⟩,
    ⟨"noreabbrev", 5, [.extra, .trlbar, .notrlcom, .usectrlv, .cmdwin], .common⟩,
    ⟨"noremenu", 6, [.range, .notadr, .zeror, .bang, .extra, .trlbar, .notrlcom, .usectrlv, .cmdwin], .common⟩,
    ⟨"normal", 4, [.range, .bang, .extra, .needarg, .notrlcom, .usectrlv, .sboxok, .cmdwin], .common⟩,
    ⟨"number", 2, [.range, .wholefold, .count, .exflags, .trlbar, .cmdwin], .common⟩,
    ⟨"nunmap", 3, [.extra, .trlbar, .notrlcom, .usectrlv, .cmdwin], .common⟩,
    ⟨"nunmenu", 5, [.extra, .trlbar, .notrlcom, .usectrlv, .cmdwin], .common⟩,
    ⟨"oldfiles", 2, [.bang, .trlbar, .sboxok, .cmdwin], .common⟩,
    ⟨"open", 1, [.range, .bang, .extra], .common⟩,
    ⟨"omap", 2, [.extra, .trlbar, .notrlcom, .usectrlv, .cmdwin], .common⟩,
    ⟨"omapclear", 5, [.extra, .trlbar, .cmdwin], .common⟩,
    ⟨"omenu", 3, [.range, .notadr, .zeror, .extra, .trlbar, .notrlcom, .usectrlv, .cmdwin], .common⟩,
    ⟨"only", 2, [.bang, .trlbar], .common⟩,
    ⟨"onoremap", 3, [.extra, .trlbar, .notrlcom, .usectrlv, .cmdwin], .common⟩,
    ⟨"onoremenu", 7, [.range, .notadr, .zeror, .extra, .trlbar, .notrlcom, .usectrlv, .cmdwin], .common⟩,
    ⟨"options", 3, [.trlbar], .common⟩,
    ⟨"ounmap", 2, [.extra, .trlbar, .notrlcom, .usectrlv, .cmdwin], .common⟩,
    ⟨"ounmenu", 5, [.extra, .trlbar, .notrlcom, .usectrlv, .cmdwin], .common⟩,
    ⟨"ownsyntax", 2, [.extra, .notrlcom, .sboxok, .cmdwin], .common⟩,
    ⟨"pclose", 2, [.bang, .trlbar], .common⟩,
    ⟨"pedit", 3, [.bang, .file1, .editcmd, .argopt, .trlbar], .common⟩,
    ⟨"perl", 2, [.range, .extra, .dflall, .needarg, .sboxok, .cmdwin], .foreign .perl⟩,
    ⟨"print", 1, [.range, .wholefold, .count, .exflags, .trlbar, .cmdwin, .sboxok], .common⟩,
    ⟨"profdel", 5, [.extra, .trlbar, .cmdwin], .common⟩,
    ⟨"profile", 4, [.bang, .extra, .trlbar, .cmdwin], .common⟩,
    ⟨"promptfind", 3, [.extra, .notrlcom, .cmdwin], .common⟩,
    ⟨"promptrepl", 7, [.extra, .notrlcom, .cmdwin], .common⟩,
    ⟨"perldo", 5, [.range, .extra, .dflall, .needarg, .cmdwin], .common⟩,
    ⟨"pop", 2, [.range, .notadr, .bang, .count, .trlbar, .zeror], .common⟩,
    ⟨"popup", 4, [.needarg, .extra, .bang, .trlbar, .notrlcom, .cmdwin], .common⟩,
    ⟨"ppop", 2, [.range, .notadr, .bang, .count, .trlbar, .zeror], .common⟩,
    ⟨"preserve", 3, [.trlbar], .common⟩,
    ⟨"previous", 4, [.extra, .range, .notadr, .count, .bang, .editcmd, .argopt, .trlbar], .common⟩,
    ⟨"psearch", 2, [.bang, .range, .wholefold, .dflall, .extra], .common⟩,
    ⟨"ptag", 2, [.range, .notadr, .bang, .word1, .trlbar, .zeror], .common⟩,
    ⟨"ptNext", 3, [.range, .notadr, .bang, .trlbar, .zeror], .common⟩,
    ⟨"ptfirst", 3, [.range, .notadr, .bang, .trlbar, .zeror], .common⟩,
    ⟨"ptjump", 3, [.bang, .trlbar, .word1], .common⟩,
    ⟨"ptlast", 3, [.bang, .trlbar], .common⟩,
    ⟨"ptnext", 3, [.range, .notadr, .bang, .trlbar, .zeror], .common⟩,
    ⟨"ptprevious", 3, [.range, .notadr, .bang, .trlbar, .zeror], .common⟩,
    ⟨"ptrewind", 3, [.range, .notadr, .bang, .trlbar, .zeror], .common⟩,
    ⟨"ptselect", 3, [.bang, .trlbar, .word1], .common⟩,
    ⟨"put", 2, [.range, .wholefold, .bang, .regstr, .trlbar, .zeror, .cmdwin, .modify], .common⟩,
    ⟨"pwd", 2, [.trlbar, .cmdwin], .common⟩,
    ⟨"py3", 3, [.range, .extra, .needarg, .cmdwin], .foreign .python3⟩,
    ⟨"python3", 7, [.range, .extra, .needarg, .cmdwin], .foreign .python3⟩,
    ⟨"py3file", 4, [.range, .file1, .needarg, .cmdwin], .common⟩,
    ⟨"python", 2, [.range, .extra, .needarg, .cmdwin], .foreign .python⟩,
    ⟨"pyfile", 3, [.range, .file1, .needarg, .cmdwin], .common⟩,
    ⟨"pydo", 3, [.range, .dflall, .extra, .needarg, .cmdwin], .common⟩,
    ⟨"py3do", 4, [.range, .dflall, .extra, .needarg, .cmdwin], .common⟩,
    ⟨"quit", 1, [.bang, .trlbar, .cmdwin], .common⟩,
    ⟨"quitall", 5, [.bang, .trlbar], .common⟩,
    ⟨"qall", 2, [.bang, .trlbar, .cmdwin], .common⟩,
    ⟨"read", 1, [.bang, .range, .wholefold, .file1, .argopt, .trlbar, .zeror, .cmdwin, .modify], .common⟩,
    ⟨"recover", 3, [.bang, .file1, .trlbar], .common⟩,
    ⟨"redo", 3, [.trlbar, .cmdwin], .common⟩,
    ⟨"redir", 4, [.bang, .files, .trlbar, .cmdwin], .common⟩,
    ⟨"redraw", 4, [.bang, .trlbar, .cmdwin], .common⟩,
    ⟨"redrawstatus", 7, [.bang, .trlbar, .cmdwin], .common⟩,
    ⟨"registers", 3, [.extra, .notrlcom, .trlbar, .cmdwin], .common⟩,
    ⟨"resize", 3, [.range, .notadr, .trlbar, .word1], .common⟩,
    ⟨"retab", 3, [.trlbar, .range, .wholefold, .dflall, .bang, .word1, .cmdwin, .modify], .common⟩,
    ⟨"return", 4, [.extra, .notrlcom, .sboxok, .cmdwin], .returnValue⟩,
    ⟨"rewind", 3, [.extra, .bang, .editcmd, .argopt, .trlbar], .common⟩,
    ⟨"right", 2, [.trlbar, .range, .wholefold, .extra, .cmdwin, .modify], .common⟩,
    ⟨"rightbelow", 6, [.needarg, .extra, .notrlcom], .common⟩,
    ⟨"ruby", 3, [.range, .extra, .needarg, .cmdwin], .foreign .ruby⟩,
    ⟨"rubydo", 5, [.range, .dflall, .extra, .needarg, .cmdwin], .common⟩,
    ⟨"rubyfile", 5, [.range, .file1, .needarg, .cmdwin], .common⟩,
    ⟨"rundo", 4, [.needarg, .file1], .common⟩,
    ⟨"runtime", 2, [.bang, .needarg, .files, .trlbar, .sboxok, .cmdwin], .common⟩,
    ⟨"rviminfo", 2, [.bang, .file1, .trlbar, .cmdwin], .common⟩]

def fromSToZ : List Command :=
  [⟨"substitute", 1, [.range, .wholefold, .extra, .cmdwin], .common⟩,
    ⟨"sNext", 2, [.extra, .range, .notadr, .count, .bang, .editcmd, .argopt, .trlbar], .common⟩,
    ⟨"sandbox", 3, [.needarg, .extra, .notrlcom], .common⟩,
    ⟨"sargument", 2, [.bang, .range, .notadr, .count, .extra, .editcmd, .argopt, .trlbar], .common⟩,
    ⟨"sall", 3, [.bang, .range, .notadr, .count, .trlbar], .common⟩,
    ⟨"saveas", 3, [.bang, .dflall, .file1, .argopt, .cmdwin, .trlbar], .common⟩,
    ⟨"sbuffer", 2, [.bang, .range, .notadr, .bufname, .bufunl, .count, .extra, .trlbar], .common⟩,
    ⟨"sbNext", 3, [.range, .notadr, .count, .trlbar], .common⟩,
    ⟨"sball", 3, [.range, .notadr, .count, .trlbar], .common⟩,
    ⟨"sbfirst", 3, [.trlbar], .common⟩,
    ⟨"sblast", 3, [.trlbar], .common⟩,
    ⟨"sbmodified", 3, [.range, .notadr, .count, .trlbar], .common⟩,
    ⟨"sbnext", 3, [.range, .notadr, .count, .trlbar], .common⟩,
    ⟨"sbprevious", 3, [.range, .notadr, .count, .trlbar], .common⟩,
    ⟨"sbrewind", 3, [.trlbar], .common⟩,
    ⟨"scriptnames", 3, [.trlbar, .cmdwin], .common⟩,
    ⟨"scriptencoding", 7, [.word1, .trlbar, .cmdwin], .common⟩,
    ⟨"scscope", 3, [.extra, .notrlcom], .common⟩,
    ⟨"set", 2, [.trlbar, .extra, .cmdwin, .sboxok], .common⟩,
    ⟨"setfiletype", 4, [.trlbar, .extra, .needarg, .cmdwin], .common⟩,
    ⟨"setglobal", 4, [.trlbar, .extra, .cmdwin, .sboxok], .common⟩,
    ⟨"setlocal", 4, [.trlbar, .extra, .cmdwin, .sboxok], .common⟩,
    ⟨"sfind", 2, [.bang, .file1, .range, .notadr, .editcmd, .argopt, .trlbar], .common⟩,
    ⟨"sfirst", 4, [.extra, .bang, .editcmd, .argopt, .trlbar], .common⟩,
    ⟨"shell", 2, [.trlbar, .cmdwin], .common⟩,
    ⟨"simalt", 3, [.needarg, .word1, .trlbar, .cmdwin], .common⟩,
    ⟨"sign", 3, [.needarg, .range, .notadr, .extra, .cmdwin], .common⟩,
    ⟨"silent", 3, [.needarg, .extra, .bang, .notrlcom, .sboxok, .cmdwin], .common⟩,
    ⟨"sleep", 2, [.range, .notadr, .count, .extra, .trlbar, .cmdwin], .common⟩,
    ⟨"slast", 3, [.extra, .bang, .editcmd, .argopt, .trlbar], .common⟩,
    ⟨"smagic", 2, [.range, .wholefold, .extra, .cmdwin], .common⟩,
    ⟨"smap", 4, [.extra, .trlbar, .notrlcom, .usectrlv, .cmdwin], .common⟩,
    ⟨"smapclear", 5, [.extra, .trlbar, .cmdwin], .common⟩,
    ⟨"smenu", 3, [.range, .notadr, .zeror, .extra, .trlbar, .notrlcom, .usectrlv, .cmdwin], .common⟩,
    ⟨"snext", 2, [.range, .notadr, .bang, .files, .editcmd, .argopt, .trlbar], .common⟩,
    ⟨"sniff", 3, [.extra, .trlbar], .common⟩,
    ⟨"snomagic", 3, [.range, .wholefold, .extra, .cmdwin], .common⟩,
    ⟨"snoremap", 4, [.extra, .trlbar, .notrlcom, .usectrlv, .cmdwin], .common⟩,
    ⟨"snoremenu", 7, [.range, .notadr, .zeror, .extra, .trlbar, .notrlcom, .usectrlv, .cmdwin], .common⟩,
    ⟨"sort", 3, [.range, .dflall, .wholefold, .bang, .extra, .notrlcom, .modify], .common⟩,
    ⟨"source", 2, [.bang, .file1, .trlbar, .sboxok, .cmdwin], .common⟩,
    ⟨"spelldump", 6, [.bang, .trlbar], .common⟩,
    ⟨"spellgood", 3, [.bang, .range, .notadr, .needarg, .extra, .trlbar], .common⟩,
    ⟨"spellinfo", 6, [.trlbar], .common⟩,
    ⟨"spellrepall", 6, [.trlbar], .common⟩,
    ⟨"spellundo", 6, [.bang, .range, .notadr, .needarg, .extra, .trlbar], .common⟩,
    ⟨"spellwrong", 6, [.bang, .range, .notadr, .needarg, .extra, .trlbar], .common⟩,
    ⟨"split", 2, [.bang, .file1, .range, .notadr, .editcmd, .argopt, .trlbar], .common⟩,
    ⟨"sprevious", 3, [.extra, .range, .notadr, .count, .bang, .editcmd, .argopt, .trlbar], .common⟩,
    ⟨"srewind", 3, [.extra, .bang, .editcmd, .argopt, .trlbar], .common⟩,
    ⟨"stop", 2, [.trlbar, .bang, .cmdwin], .common⟩,
    ⟨"stag", 3, [.range, .notadr, .bang, .word1, .trlbar, .zeror], .common⟩,
    ⟨"startinsert", 4, [.bang, .trlbar, .cmdwin], .common⟩,
    ⟨"startgreplace", 6, [.bang, .trlbar, .cmdwin], .common⟩,
    ⟨"startreplace", 6, [.bang, .trlbar, .cmdwin], .common⟩,
    ⟨"stopinsert", 5, [.bang, .trlbar, .cmdwin], .common⟩,
    ⟨"stjump", 3, [.bang, .trlbar, .word1], .common⟩,
    ⟨"stselect", 3, [.bang, .trlbar, .word1], .common⟩,
    ⟨"sunhide", 3, [.range, .notadr, .count, .trlbar], .common⟩,
    ⟨"sunmap", 4, [.extra, .trlbar, .notrlcom, .usectrlv, .cmdwin], .common⟩,
    ⟨"sunmenu", 5, [.extra, .trlbar, .notrlcom, .usectrlv, .cmdwin], .common⟩,
    ⟨"suspend", 3, [.trlbar, .bang, .cmdwin], .common⟩,
    ⟨"sview", 2, [.bang, .file1, .range, .notadr, .editcmd, .argopt, .trlbar], .common⟩,
    ⟨"swapname", 2, [.trlbar, .cmdwin], .common⟩,
    ⟨"syntax", 2, [.extra, .notrlcom, .cmdwin], .highlighting⟩,
    ⟨"syntime", 5, [.needarg, .word1, .trlbar, .cmdwin], .common⟩,
    ⟨"syncbind", 4, [.trlbar], .common⟩,
    ⟨"t", 1, [.range, .wholefold, .extra, .trlbar, .cmdwin, .modify], .common⟩,
    ⟨"tNext", 2, [.range, .notadr, .bang, .trlbar, .zeror], .common⟩,
    ⟨"tabNext", 4, [.range, .notadr, .count, .trlbar], .common⟩,
    ⟨"tabclose", 4, [.range, .notadr, .count, .bang, .trlbar, .cmdwin], .common⟩,
    ⟨"tabdo", 4, [.needarg, .extra, .notrlcom], .common⟩,
    ⟨"tabedit", 4, [.bang, .file1, .range, .notadr, .zeror, .editcmd, .argopt, .trlbar], .common⟩,
    ⟨"tabfind", 4, [.bang, .file1, .range, .notadr, .zeror, .editcmd, .argopt, .needarg, .trlbar], .common⟩,
    ⟨"tabfirst", 6, [.trlbar], .common⟩,
    ⟨"tablast", 4, [.trlbar], .common⟩,
    ⟨"tabmove", 4, [.range, .notadr, .zeror, .extra, .nospc, .trlbar], .common⟩,
    ⟨"tabnew", 6, [.bang, .file1, .range, .notadr, .zeror, .editcmd, .argopt, .trlbar], .common⟩,
    ⟨"tabnext", 4, [.range, .notadr, .count, .trlbar], .common⟩,
    ⟨"tabonly", 4, [.bang, .trlbar, .cmdwin], .common⟩,
    ⟨"tabprevious", 4, [.range, .notadr, .count, .trlbar], .common⟩,
    ⟨"tabrewind", 4, [.trlbar], .common⟩,
    ⟨"tabs", 4, [.trlbar, .cmdwin], .common⟩,
    ⟨"tab", 3, [.needarg, .extra, .notrlcom], .common⟩,
    ⟨"tag", 2, [.range, .notadr, .bang, .word1, .trlbar, .zeror], .common⟩,
    ⟨"tags", 4, [.trlbar, .cmdwin], .common⟩,
    ⟨"tcl", 2, [.range, .extra, .needarg, .cmdwin], .foreign .tcl⟩,
    ⟨"tcldo", 4, [.range, .dflall, .extra, .needarg, .cmdwin], .common⟩,
    ⟨"tclfile", 4, [.range, .file1, .needarg, .cmdwin], .common⟩,
    ⟨"tearoff", 2, [.needarg, .extra, .trlbar, .notrlcom, .cmdwin], .common⟩,
    ⟨"tfirst", 2, [.range, .notadr, .bang, .trlbar, .zeror], .common⟩,
    ⟨"throw", 2, [.extra, .needarg, .sboxok, .cmdwin], .throw⟩,
    ⟨"tjump", 2, [.bang, .trlbar, .word1], .common⟩,
    ⟨"tlast", 2, [.bang, .trlbar], .common⟩,
    ⟨"tmenu", 2, [.range, .notadr, .zeror, .extra, .trlbar, .notrlcom, .usectrlv, .cmdwin], .common⟩,
    ⟨"tnext", 2, [.range, .notadr, .bang, .trlbar, .zeror], .common⟩,
    ⟨"topleft", 2, [.needarg, .extra, .notrlcom], .common⟩,
    ⟨"tprevious", 2, [.range, .notadr, .bang, .trlbar, .zeror], .common⟩,
    ⟨"trewind", 2, [.range, .notadr, .bang, .trlbar, .zeror], .common⟩,
    ⟨"try", 3, [.trlbar, .sboxok, .cmdwin], .opener .tryBlock⟩,
    ⟨"tselect", 2, [.bang, .trlbar, .word1], .common⟩,
    ⟨"tunmenu", 2, [.extra, .trlbar, .notrlcom, .usectrlv, .cmdwin], .common⟩,
    ⟨"undo", 1, [.range, .notadr, .count, .zeror, .trlbar, .cmdwin], .common⟩,
    ⟨"undojoin", 5, [.trlbar, .cmdwin], .common⟩,
    ⟨"undolist", 5, [.trlbar, .cmdwin], .common⟩,
    ⟨"unabbreviate", 3, [.extra, .trlbar, .notrlcom, .usectrlv, .cmdwin], .common⟩,
    ⟨"unhide", 3, [.range, .notadr, .count, .trlbar], .common⟩,
    ⟨"unlet", 3, [.bang, .extra, .needarg, .sboxok, .cmdwin], .unlet⟩,
    ⟨"unlockvar", 4, [.bang, .extra, .needarg, .sboxok, .cmdwin], .lock .unlock⟩,
    ⟨"unmap", 3, [.bang, .extra, .trlbar, .notrlcom, .usectrlv, .cmdwin], .common⟩,
    ⟨"unmenu", 4, [.bang, .extra, .trlbar, .notrlcom, .usectrlv, .cmdwin], .common⟩,
    ⟨"unsilent", 3, [.needarg, .extra, .notrlcom, .sboxok, .cmdwin], .common⟩,
    ⟨"update", 2, [.range, .wholefold, .bang, .file1, .argopt, .dflall, .trlbar], .common⟩,
    ⟨"vglobal", 1, [.range, .wholefold, .extra, .dflall, .cmdwin], .common⟩,
    ⟨"version", 2, [.extra, .trlbar, .cmdwin], .common⟩,
    ⟨"verbose", 4, [.needarg, .range, .notadr, .extra, .notrlcom, .sboxok, .cmdwin], .common⟩,
    ⟨"vertical", 4, [.needarg, .extra, .notrlcom], .common⟩,
    ⟨"vimgrep", 3, [.range, .notadr, .bang, .needarg, .extra, .notrlcom, .trlbar, .xfile], .common⟩,
    ⟨"vimgrepadd", 8, [.range, .notadr, .bang, .needarg, .extra, .notrlcom, .trlbar, .xfile], .common⟩,
    ⟨"visual", 2, [.bang, .file1, .editcmd, .argopt, .trlbar], .common⟩,
    ⟨"viusage", 3, [.trlbar], .common⟩,
    ⟨"view", 3, [.bang, .file1, .editcmd, .argopt, .trlbar], .common⟩,
    ⟨"vmap", 2, [.extra, .trlbar, .notrlcom, .usectrlv, .cmdwin], .common⟩,
    ⟨"vmapclear", 5, [.extra, .trlbar, .cmdwin], .common⟩,
    ⟨"vmenu", 3, [.range, .notadr, .zeror, .extra, .trlbar, .notrlcom, .usectrlv, .cmdwin], .common⟩,
    ⟨"vnew", 3, [.bang, .file1, .range, .notadr, .editcmd, .argopt, .trlbar], .common⟩,
    ⟨"vnoremap", 2, [.extra, .trlbar, .notrlcom, .usectrlv, .cmdwin], .common⟩,
    ⟨"vnoremenu", 7, [.range, .notadr, .zeror, .extra, .trlbar, .notrlcom, .usectrlv, .cmdwin], .common⟩,
    ⟨"vsplit", 2, [.bang, .file1, .range, .notadr, .editcmd, .argopt, .trlbar], .common⟩,
    ⟨"vunmap", 2, [.extra, .trlbar, .notrlcom, .usectrlv, .cmdwin], .common⟩,
    ⟨"vunmenu", 5, [.extra, .trlbar, .notrlcom, .usectrlv, .cmdwin], .common⟩,
    ⟨"windo", 5, [.bang, .needarg, .extra, .notrlcom], .common⟩,
    ⟨"write", 1, [.range, .wholefold, .bang, .file1, .argopt, .dflall, .trlbar, .cmdwin], .common⟩,
    ⟨"wNext", 2, [.range, .wholefold, .notadr, .bang, .file1, .argopt, .trlbar], .common⟩,
    ⟨"wall", 2, [.bang, .trlbar, .cmdwin], .common⟩,
    ⟨"while", 2, [.extra, .notrlcom, .sboxok, .cmdwin], .opener .whileLoop⟩,
    ⟨"winsize", 2, [.extra, .needarg, .trlbar], .common⟩,
    ⟨"wincmd", 4, [.needarg, .word1, .range, .notadr], .window⟩,
    ⟨"winpos", 4, [.extra, .trlbar, .cmdwin], .common⟩,
    ⟨"wnext", 2, [.range, .notadr, .bang, .file1, .argopt, .trlbar], .common⟩,
    ⟨"wprevious", 2, [.range, .notadr, .bang, .file1, .argopt, .trlbar], .common⟩,
    ⟨"wq", 2, [.range, .wholefold, .bang, .file1, .argopt, .dflall, .trlbar], .common⟩,
    ⟨"wqall", 3, [.bang, .file1, .argopt, .dflall, .trlbar], .common⟩,
    ⟨"wsverb", 2, [.extra, .notadr, .needarg], .common⟩,
    ⟨"wundo", 2, [.bang, .needarg, .file1], .common⟩,
    ⟨"wviminfo", 2, [.bang, .file1, .trlbar, .cmdwin], .common⟩,
    ⟨"xit", 1, [.range, .wholefold, .bang, .file1, .argopt, .dflall, .trlbar, .cmdwin], .common⟩,
    ⟨"xall", 2, [.bang, .trlbar], .common⟩,
    ⟨"xmapclear", 5, [.extra, .trlbar, .cmdwin], .common⟩,
    ⟨"xmap", 2, [.extra, .trlbar, .notrlcom, .usectrlv, .cmdwin], .common⟩,
    ⟨"xmenu", 3, [.range, .notadr, .zeror, .extra, .trlbar, .notrlcom, .usectrlv, .cmdwin], .common⟩,
    ⟨"xnoremap", 2, [.extra, .trlbar, .notrlcom, .usectrlv, .cmdwin], .common⟩,
    ⟨"xnoremenu", 7, [.range, .notadr, .zeror, .extra, .trlbar, .notrlcom, .usectrlv, .cmdwin], .common⟩,
    ⟨"xunmap", 2, [.extra, .trlbar, .notrlcom, .usectrlv, .cmdwin], .common⟩,
    ⟨"xunmenu", 5, [.extra, .trlbar, .notrlcom, .usectrlv, .cmdwin], .common⟩,
    ⟨"yank", 1, [.range, .wholefold, .regstr, .count, .trlbar, .cmdwin], .common⟩,
    ⟨"z", 1, [.range, .wholefold, .extra, .exflags, .trlbar, .cmdwin], .common⟩]

/-- Commands named by a symbol or a capital letter. -/
def symbolsAndCapitals : List Command :=
  [⟨"!", 1, [.range, .wholefold, .bang, .files, .cmdwin], .common⟩,
    ⟨"#", 1, [.range, .wholefold, .count, .exflags, .trlbar, .cmdwin], .common⟩,
    ⟨"&", 1, [.range, .wholefold, .extra, .cmdwin, .modify], .common⟩,
    ⟨"*", 1, [.range, .wholefold, .extra, .trlbar, .cmdwin], .common⟩,
    ⟨"<", 1, [.range, .wholefold, .count, .exflags, .trlbar, .cmdwin, .modify], .common⟩,
    ⟨"=", 1, [.range, .trlbar, .dflall, .exflags, .cmdwin], .common⟩,
    ⟨">", 1, [.range, .wholefold, .count, .exflags, .trlbar, .cmdwin, .modify], .common⟩,
    ⟨"@", 1, [.range, .wholefold, .extra, .trlbar, .cmdwin], .common⟩,
    ⟨"Next", 1, [.extra, .range, .notadr, .count, .bang, .editcmd, .argopt, .trlbar], .common⟩,
    ⟨"Print", 1, [.range, .wholefold, .count, .exflags, .trlbar, .cmdwin], .common⟩,
    ⟨"X", 1, [.trlbar], .common⟩,
    ⟨"~", 1, [.range, .wholefold, .extra, .cmdwin, .modify], .common⟩]

/-- Commands of later versions; an abbreviation an older command accepts stays with it. -/
def recent : List Command :=
  [⟨"cbottom", 3, [.trlbar], .common⟩,
    ⟨"cdo", 3, [.bang, .needarg, .extra, .notrlcom, .range, .notadr, .dflall], .common⟩,
    ⟨"cfdo", 3, [.bang, .needarg, .extra, .notrlcom, .range, .notadr, .dflall], .common⟩,
    ⟨"chistory", 3, [.trlbar], .common⟩,
    ⟨"clearjumps", 3, [.trlbar, .cmdwin], .common⟩,
    ⟨"filter", 4, [.bang, .needarg, .extra, .notrlcom], .common⟩,
    ⟨"helpclose", 5, [.range, .notadr, .count, .trlbar], .common⟩,
    ⟨"lbottom", 3, [.trlbar], .common⟩,
    ⟨"ldo", 2, [.bang, .needarg, .extra, .notrlcom, .range, .notadr, .dflall], .common⟩,
    ⟨"lfdo", 3, [.bang, .needarg, .extra, .notrlcom, .range, .notadr, .dflall], .common⟩,
    ⟨"lhistory", 3, [.trlbar], .common⟩,
    ⟨"noswapfile", 3, [.needarg, .extra, .notrlcom], .common⟩,
    ⟨"packadd", 2, [.bang, .file1, .needarg, .trlbar, .sboxok, .cmdwin], .common⟩,
    ⟨"packloadall", 5, [.bang, .trlbar, .sboxok, .cmdwin], .common⟩,
    ⟨"smile", 3, [.trlbar, .cmdwin, .sboxok], .common⟩,
    ⟨"pyx", 3, [.range, .extra, .needarg, .cmdwin], .common⟩,
    ⟨"pyxdo", 4, [.range, .dflall, .extra, .needarg, .cmdwin], .common⟩,
    ⟨"pythonx", 7, [.range, .extra, .needarg, .cmdwin], .common⟩,
    ⟨"pyxfile", 4, [.range, .file1, .needarg, .cmdwin], .common⟩,
    ⟨"terminal", 3, [.range, .bang, .files, .cmdwin], .common⟩,
    ⟨"tmap", 3, [.extra, .trlbar, .notrlcom, .usectrlv, .cmdwin], .common⟩,
    ⟨"tmapclear", 5, [.extra, .trlbar, .cmdwin], .common⟩,
    ⟨"tnoremap", 3, [.extra, .trlbar, .notrlcom, .usectrlv, .cmdwin], .common⟩,
    ⟨"tunmap", 5, [.extra, .trlbar, .notrlcom, .usectrlv, .cmdwin], .common⟩,
    ⟨"cabove", 4, [.range, .count, .trlbar], .common⟩,
    ⟨"cafter", 3, [.range, .count, .trlbar], .common⟩,
    ⟨"cbefore", 3, [.range, .count, .trlbar], .common⟩,
    ⟨"cbelow", 4, [.range, .count, .trlbar], .common⟩,
    ⟨"labove", 3, [.range, .count, .trlbar], .common⟩,
    ⟨"lafter", 3, [.range, .count, .trlbar], .common⟩,
    ⟨"lbefore", 3, [.range, .count, .trlbar], .common⟩,
    ⟨"lbelow", 4, [.range, .count, .trlbar], .common⟩,
    ⟨"redrawtabline", 7, [.trlbar, .cmdwin], .common⟩,
    ⟨"scriptversion", 7, [.word1, .trlbar, .cmdwin], .common⟩,
    ⟨"tcd", 2, [.bang, .file1, .trlbar, .cmdwin], .common⟩,
    ⟨"tchdir", 3, [.bang, .file1, .trlbar, .cmdwin], .common⟩,
    ⟨"tlmenu", 3, [.range, .zeror, .extra, .trlbar, .notrlcom, .cmdwin], .common⟩,
    ⟨"tlnoremenu", 3, [.range, .zeror, .extra, .trlbar, .notrlcom, .cmdwin], .common⟩,
    ⟨"tlunmenu", 3, [.range, .zeror, .extra, .trlbar, .notrlcom, .cmdwin], .common⟩,
    ⟨"xrestore", 2, [.extra, .trlbar, .cmdwin], .common⟩,
    ⟨"def", 3, [.extra, .bang, .sboxok, .cmdwin], .common⟩,
    ⟨"disassemble", 4, [.extra, .needarg, .trlbar, .cmdwin], .common⟩,
    ⟨"enddef", 4, [.trlbar, .cmdwin], .common⟩,
    ⟨"export", 3, [.extra, .notrlcom], .common⟩,
    ⟨"import", 3, [.extra, .notrlcom], .common⟩,
    ⟨"spellrare", 7, [.bang, .range, .needarg, .extra, .trlbar], .common⟩,
    ⟨"vim9script", 4, [], .common⟩]

def builtin : List Command :=
  fromAToC ++ fromDToL ++ fromMToR ++ fromSToZ ++ symbolsAndCapitals ++ recent

/-- Commands that Neovim has besides. -/
def neovimAdded : List Command :=
  [⟨"rshada", 3, [.bang, .file1, .trlbar, .cmdwin], .common⟩,
    ⟨"wshada", 3, [.bang, .file1, .trlbar, .cmdwin], .common⟩]

/-- Commands that Neovim does not have. -/
def neovimRemoved : List Command :=
  [⟨"Print", 1, [.range, .wholefold, .count, .exflags, .trlbar, .cmdwin], .common⟩,
    ⟨"fixdel", 3, [.trlbar, .cmdwin], .common⟩,
    ⟨"helpfind", 5, [.extra, .notrlcom], .common⟩,
    ⟨"open", 1, [.range, .bang, .extra], .common⟩,
    ⟨"shell", 2, [.trlbar, .cmdwin], .common⟩,
    ⟨"tearoff", 2, [.needarg, .extra, .trlbar, .notrlcom, .cmdwin], .common⟩,
    ⟨"gvim", 2, [.bang, .files, .editcmd, .argopt, .trlbar, .cmdwin], .common⟩]

end VimScript.Command
