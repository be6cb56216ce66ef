import Laboratorio.Sim.Fifo
import Laboratorio.Sim.Lru
import Laboratorio.Uthread.Planificador
import Laboratorio.Uthread.Simulacion
import Laboratorio.Xv6.Kill
import Laboratorio.Xv6.Spinlock
import Laboratorio.Xv6.Console
import Laboratorio.Shell.Main
import Laboratorio.Shell.Redir
import Laboratorio.Shell.Agree
import Laboratorio.Xv6.LogSpace
import Laboratorio.Xv6.Tree
import Laboratorio.Xv6.Fs.DirMap
import Laboratorio.Xv6.ReadWrite
import Laboratorio.Xv6.LogBudget
import Laboratorio.Xv6.Pids
import Laboratorio.Xv6.PipeSleep
import Laboratorio.Xv6.Bio.Transparent
import Laboratorio.Xv6.Bio.Readers
import Laboratorio.Xv6.Mkfs.Correct
import Laboratorio.Lab04.Glob
import Laboratorio.Lab04.Buffer
import Laboratorio.Lab05.Admission
import Laboratorio.Lab05.Sequential
import Laboratorio.Sim.Disco
import Laboratorio.Xv6.Fork
import Laboratorio.Xv6.Argv
import Laboratorio.Xv6.Fetch
import Laboratorio.Xv6.Programs
import Laboratorio.Xv6.Grep.Lines
import Laboratorio.Xv6.Dealloc
import Laboratorio.Lab05.Canvas
import Laboratorio.Lab05.Destruir
import Laboratorio.Lab01.Histograma
import Laboratorio.Sim.Entrada
import Laboratorio.Uthread.Contextos
import Laboratorio.Xv6.Umalloc.Sizes
